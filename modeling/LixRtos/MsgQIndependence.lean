import LixRtos.MsgQLoops
import Mathlib.Data.List.Induction

/-! The clients of one process share the static timeout counter of `monitor_event`. A client does
not notice the calls of the others exactly when that counter says the same as one of its own. -/
namespace LixRtos
namespace MsgQClt
open MsgQ

inductive EventCall
  | requestevent (key : Option Path) (hand : ℕ)
  | monitorevent (tout : ℤ)
  deriving DecidableEq

def EventCall.run (client : MsgQClt) (toutCnt : ℕ) : EventCall → Sys (ℤ × MsgQClt × ℕ)
  | .requestevent key hand => do
    let r ← client.requestevent key hand
    pure (r.1,r.2,toutCnt)
  | .monitorevent tout => client.monitorevent toutCnt tout

/-- The clients of a process and its static counter. -/
structure EventProcess (ι : Type) where
  clients : ι → MsgQClt
  toutCnt : ℕ

/-- A call with the outcomes of its system calls, what it returned, and `pid` and `hand` of the
client afterwards. -/
structure EventStep (ι : Type) where
  who : ι
  call : EventCall
  outcomes : List (Program.Exchange SysCall SysCall.Answer)
  ret : ℤ
  pid : ℤ
  hand : ℕ

variable {ι : Type}

def EventStep.input (t : EventStep ι) :
    ι × EventCall × List (Program.Exchange SysCall SysCall.Answer) :=
  (t.who,t.call,t.outcomes)

variable [DecidableEq ι]

/-- The runs of a process that starts with these clients. -/
inductive EventRun (clients : ι → MsgQClt) : List (EventStep ι) → EventProcess ι → Prop
  | refl : EventRun clients [] ⟨clients,0⟩
  | call {steps : List (EventStep ι)} {s : EventProcess ι} (i : ι) (call : EventCall)
      {outcomes : List (Program.Exchange SysCall SysCall.Answer)} {r : ℤ × MsgQClt × ℕ}
      (hrun : EventRun clients steps s) (h : (call.run (s.clients i) s.toutCnt).Yields outcomes r) :
      EventRun clients (steps ++ [⟨i,call,outcomes,r.1,r.2.1.pid,r.2.1.hand⟩])
        ⟨Function.update s.clients i r.2.1,r.2.2⟩

/-- The answer of the first reading of the clock, and the one of the last call if it was one. -/
structure Clocks where
  first : Option (Option Timer)
  last : Option (Option Timer)

def clocks : Program.Protocol SysCall SysCall.Answer Clocks where
  allows _ _ := True
  answers _ _ _ := True
  next
    | a, .clockGettime, r => ⟨some (a.first.getD r),some r⟩
    | a, _, _ => ⟨a.first,none⟩

def timerOf (tout : ℤ) (clock : Option Timer) : Timer :=
  if tout = 0 then ⟨0,0⟩ else (Timer.tmSetMs clock (some ⟨0,0⟩) (tout % 2^32).toNat).2.getD ⟨0,0⟩

def Clocks.expired (tout : ℤ) : Clocks → Bool
  | ⟨some first,some last⟩ => Timer.tmIsTimeout last (timerOf tout first) ≠ 0
  | _ => false

/-- The outcomes of the call make it a timeout of `monitor_event`. -/
def EventCall.timesOut (outcomes : List (Program.Exchange SysCall SysCall.Answer)) : EventCall → Bool
  | .requestevent _ _ => false
  | .monitorevent tout => (clocks.final ⟨none,none⟩ outcomes).expired tout

def EventStep.timedOut (t : EventStep ι) : Bool := t.call.timesOut t.outcomes

/-- The counter after the timeouts of the clients in `own`. -/
def toutCount (own : ι → Bool) (steps : List (EventStep ι)) : ℕ :=
  steps.foldl (fun n t => if own t.who && t.timedOut then (if n > 10 then 0 else n+1) else n) 0

def await (client : MsgQClt) (tout : ℤ) : Sys Received := do
  let timer ← startTimer tout
  receiveLoop client.eid (pure messageQueueAnyMessage) (tout ≠ 0) timer true

def isTimeout : Received → Bool
  | .timeout => true
  | _ => false

theorem clocks_accepts (a : Clocks) (tr : List (Program.Exchange SysCall SysCall.Answer)) :
    clocks.Accepts a tr := by
  induction tr generalizing a with
  | nil => trivial
  | cons e tr ih => exact ⟨trivial,ih _⟩

theorem startTimer_follows (tout : ℤ) : (startTimer tout).Follows clocks ⟨none,none⟩ fun a timer =>
    (a.first = none → tout = 0) ∧ timer = timerOf tout (a.first.getD none) := by
  rw [startTimer]
  split
  · next h => exact ⟨fun _ => h,by simp [timerOf,h]⟩
  · next h =>
    refine Program.Follows.bind (Program.Follows.perform trivial fun r _ => ?_)
    exact ⟨fun hnone => absurd hnone (by simp [clocks]),by simp [timerOf,h,clocks]⟩

theorem tmIsTimeout_follows (a : Clocks) (timer : Timer) : (Sys.tmIsTimeout timer).Follows clocks a
    fun a' expired => ∃ clock, a' = ⟨some (a.first.getD clock),some clock⟩ ∧
      expired = Timer.tmIsTimeout clock timer :=
  Program.Follows.bind (Program.Follows.perform trivial fun clock _ => ⟨clock,rfl,rfl⟩)

theorem await_follows (client : MsgQClt) (tout : ℤ) :
    (client.await tout).Follows clocks ⟨none,none⟩ fun a r =>
      a.expired tout = isTimeout r ∧ ((∃ pkg, r = .got pkg) → a.last = none) := by
  refine Program.Follows.bind ((startTimer_follows tout).mono ?_)
  rintro a timer ⟨hfirst,htimer⟩
  refine Program.Follows.iterate
    (fun a _ => (a.first = none → tout = 0) ∧ timer = timerOf tout (a.first.getD none))
      ⟨hfirst,htimer⟩ ?_
  rintro a _ ⟨hfirst,htimer⟩
  refine Program.Follows.bind ((pure_follows _).mono ?_)
  rintro a _ ⟨rfl,rfl⟩
  refine Program.Follows.bind (Program.Follows.perform trivial ?_)
  rintro (e | pkg) _
  · refine Program.Follows.bind ((tmIsTimeout_follows _ timer).mono ?_)
    rintro _ expired ⟨clock,rfl,hexp⟩
    -- without a timeout there is no first reading, and the timer does not depend on it
    have hnext : timer = timerOf tout (a.first.getD clock) := by
      cases hf : a.first with
      | none =>
        rw [htimer]
        simp [timerOf,hfirst hf]
      | some first => simpa [hf] using htimer
    have hexpired : Clocks.expired tout ⟨some (a.first.getD clock),some clock⟩ =
        decide (expired ≠ 0) := by
      rw [Clocks.expired,← hnext,hexp]
    split
    · next hout =>
        exact ⟨by simpa [isTimeout,clocks,hexpired] using hout,fun ⟨_,hgot⟩ => by cases hgot⟩
    · next hout =>
      split
      · exact ⟨by simpa [isTimeout,clocks,hexpired] using hout,fun ⟨_,hgot⟩ => by cases hgot⟩
      · exact Program.Follows.bind (Program.Follows.perform trivial fun _ _ => ⟨nofun,hnext⟩)
  · exact ⟨by cases hf : a.first <;> simp [isTimeout,clocks,Clocks.expired,hf],fun _ => rfl⟩

def conclude (client : MsgQClt) (toutCnt : ℕ) : Received → Sys (ℤ × MsgQClt × ℕ)
  | .timeout =>
    if toutCnt > 10 then pure (-1,{ client with pid := 0, hand := 0 },0)
    else pure (1,client,toutCnt+1)
  | .failed _ => pure (-1,{ client with pid := 0, hand := 0 },toutCnt)
  | .got pkg =>
    if client.hand = 0 then pure (-1,client,toutCnt)
    else do
      let res ← Sys.request (.handler client.hand (pkgData pkg))
      if res ≠ 0 then pure (-1,client,toutCnt) else pure (0,client,toutCnt)

theorem monitorevent_eq (client : MsgQClt) (toutCnt : ℕ) (tout : ℤ) :
    client.monitorevent toutCnt tout = (client.await tout).bind (client.conclude toutCnt) := by
  rw [await,Program.bind_eq,Program.bind_assoc]
  refine congrArg (Program.bind _) (funext fun timer => congrArg (Program.bind _) (funext fun r => ?_))
  cases r <;> rfl

def afterTimeout (client : MsgQClt) (toutCnt : ℕ) : ℤ × MsgQClt × ℕ :=
  if toutCnt > 10 then (-1,{ client with pid := 0, hand := 0 },0) else (1,client,toutCnt+1)

theorem conclude_timeout (client : MsgQClt) (toutCnt : ℕ) :
    client.conclude toutCnt .timeout = Program.ret (client.afterTimeout toutCnt) := by
  rw [conclude,afterTimeout]
  split <;> rfl

theorem conclude_quiet {client : MsgQClt} {toutCnt : ℕ} {rec : Received} (hrec : isTimeout rec = false)
    {tr : List (Program.Exchange SysCall SysCall.Answer)} {r : ℤ × MsgQClt × ℕ}
    (h : (client.conclude toutCnt rec).Yields tr r) :
    r.2.2 = toutCnt ∧ ∀ cnt, (client.conclude cnt rec).Yields tr (r.1,r.2.1,cnt) := by
  cases rec with
  | timeout => exact absurd hrec (by simp [isTimeout])
  | failed e =>
    obtain ⟨rfl,rfl⟩ := h.of_ret
    exact ⟨rfl,fun cnt => .ret _⟩
  | got pkg =>
    simp only [conclude] at h ⊢
    split at h
    · next hhand =>
      obtain ⟨rfl,rfl⟩ := h.of_ret
      exact ⟨rfl,fun cnt => by rw [if_pos hhand]; exact .ret _⟩
    · next hhand =>
      obtain ⟨res,tr',rfl,hrest⟩ := h.of_call
      by_cases hres : res = 0
      · obtain ⟨rfl,rfl⟩ := Program.Yields.of_ret (by simpa [hres] using hrest)
        exact ⟨rfl,fun cnt => by rw [if_neg hhand]; exact .call res (by simpa [hres] using .ret _)⟩
      · obtain ⟨rfl,rfl⟩ := Program.Yields.of_ret (by simpa [hres] using hrest)
        exact ⟨rfl,fun cnt => by rw [if_neg hhand]; exact .call res (by simpa [hres] using .ret _)⟩

theorem conclude_last {client : MsgQClt} {toutCnt : ℕ} {rec : Received}
    {tr : List (Program.Exchange SysCall SysCall.Answer)} {r : ℤ × MsgQClt × ℕ}
    (h : (client.conclude toutCnt rec).Yields tr r) (a : Clocks) :
    tr = [] ∨ (∃ pkg, rec = .got pkg) ∧ (clocks.final a tr).last = none := by
  cases rec with
  | timeout =>
    rw [conclude_timeout] at h
    exact Or.inl h.of_ret.1
  | failed e => exact Or.inl h.of_ret.1
  | got pkg =>
    simp only [conclude] at h
    split at h
    · exact Or.inl h.of_ret.1
    · obtain ⟨res,tr',rfl,hrest⟩ := h.of_call
      have hend : tr' = [] := by
        by_cases hres : res = 0
        · exact (Program.Yields.of_ret (by simpa [hres] using hrest)).1
        · exact (Program.Yields.of_ret (by simpa [hres] using hrest)).1
      subst hend
      exact Or.inr ⟨⟨pkg,rfl⟩,rfl⟩

theorem Clocks.expired_none {tout : ℤ} {a : Clocks} (h : a.last = none) : a.expired tout = false := by
  obtain ⟨first,last⟩ := a
  obtain rfl : last = none := h
  cases first <;> rfl

/-- Up to a timeout `monitor_event` does not look at the counter. -/
theorem monitorevent_spec {client : MsgQClt} {toutCnt : ℕ} {tout : ℤ}
    {tr : List (Program.Exchange SysCall SysCall.Answer)} {r : ℤ × MsgQClt × ℕ}
    (h : (client.monitorevent toutCnt tout).Yields tr r) :
    if (EventCall.monitorevent tout).timesOut tr then
      r = client.afterTimeout toutCnt ∧
        ∀ cnt, (client.monitorevent cnt tout).Yields tr (client.afterTimeout cnt)
    else r.2.2 = toutCnt ∧ ∀ cnt, (client.monitorevent cnt tout).Yields tr (r.1,r.2.1,cnt) := by
  rw [monitorevent_eq] at h
  obtain ⟨tr₁,tr₂,rec,rfl,hawait,hconclude⟩ := h.of_bind
  obtain ⟨hexpired,hgot⟩ := (await_follows client tout).yields hawait (clocks_accepts _ _)
  have htimes : (EventCall.monitorevent tout).timesOut (tr₁ ++ tr₂) = isTimeout rec := by
    rw [EventCall.timesOut,Program.Protocol.final_append]
    rcases conclude_last hconclude (clocks.final ⟨none,none⟩ tr₁) with rfl | ⟨⟨pkg,rfl⟩,hlast⟩
    · exact hexpired
    · rw [Clocks.expired_none hlast]
      rfl
  rw [htimes]
  cases hrec : isTimeout rec with
  | true =>
    obtain rfl : rec = .timeout := by cases rec <;> simp [isTimeout] at hrec; rfl
    rw [conclude_timeout] at hconclude
    obtain ⟨rfl,rfl⟩ := hconclude.of_ret
    refine ⟨rfl,fun cnt => ?_⟩
    rw [monitorevent_eq]
    exact hawait.bind (by rw [conclude_timeout]; exact .ret _)
  | false =>
    obtain ⟨hcnt,hany⟩ := conclude_quiet hrec hconclude
    refine ⟨hcnt,fun cnt => ?_⟩
    rw [monitorevent_eq]
    exact hawait.bind (hany cnt)

theorem requestevent_spec {client : MsgQClt} {toutCnt : ℕ} {key : Option Path} {hand : ℕ}
    {tr : List (Program.Exchange SysCall SysCall.Answer)} {r : ℤ × MsgQClt × ℕ}
    (h : ((EventCall.requestevent key hand).run client toutCnt).Yields tr r) :
    r.2.2 = toutCnt ∧
      ∀ cnt, ((EventCall.requestevent key hand).run client cnt).Yields tr (r.1,r.2.1,cnt) := by
  obtain ⟨tr₁,tr₂,x,rfl,hrequest,hret⟩ := Program.Yields.of_bind h
  obtain ⟨rfl,rfl⟩ := hret.of_ret
  exact ⟨rfl,fun cnt => hrequest.bind (.ret _)⟩

theorem EventCall.run_spec {client : MsgQClt} {toutCnt : ℕ} {call : EventCall}
    {tr : List (Program.Exchange SysCall SysCall.Answer)} {r : ℤ × MsgQClt × ℕ}
    (h : (call.run client toutCnt).Yields tr r) :
    if call.timesOut tr then
      r = client.afterTimeout toutCnt ∧
        ∀ cnt, (call.run client cnt).Yields tr (client.afterTimeout cnt)
    else r.2.2 = toutCnt ∧ ∀ cnt, (call.run client cnt).Yields tr (r.1,r.2.1,cnt) := by
  cases call with
  | requestevent key hand => exact requestevent_spec h
  | monitorevent tout => exact monitorevent_spec h

variable {clients : ι → MsgQClt} {steps : List (EventStep ι)} {s : EventProcess ι} {i : ι}

omit [DecidableEq ι] in
theorem toutCount_snoc (own : ι → Bool) (steps : List (EventStep ι)) (t : EventStep ι) :
    toutCount own (steps ++ [t]) = if own t.who && t.timedOut then
      (if toutCount own steps > 10 then 0 else toutCount own steps + 1) else toutCount own steps := by
  simp [toutCount]

theorem toutCount_filter (i : ι) (steps : List (EventStep ι)) :
    toutCount (fun _ => true) (steps.filter (·.who = i)) = toutCount (· = i) steps := by
  induction steps using List.reverseRecOn with
  | nil => rfl
  | append_singleton steps t ih =>
    rw [toutCount_snoc,List.filter_append]
    by_cases ht : t.who = i
    · have hone : [t].filter (·.who = i) = [t] := by simp [ht]
      rw [hone,toutCount_snoc,ih]
      simp [ht]
    · have hnone : [t].filter (·.who = i) = [] := by simp [ht]
      rw [hnone,List.append_nil,ih]
      simp [ht]

theorem EventRun.toutCnt_eq (hrun : EventRun clients steps s) :
    s.toutCnt = toutCount (fun _ => true) steps := by
  induction hrun with
  | refl => rfl
  | @call steps s i call outcomes r _ h ih =>
    have hspec := call.run_spec h
    rw [toutCount_snoc,← ih]
    simp only [EventStep.timedOut,Bool.true_and]
    split at hspec
    · next htimes =>
      obtain ⟨rfl,-⟩ := hspec
      rw [if_pos htimes,afterTimeout]
      split <;> rfl
    · next htimes =>
      rw [if_neg htimes]
      exact hspec.1

theorem EventRun.split {pre post : List (EventStep ι)} {t : EventStep ι}
    (hrun : EventRun clients (pre ++ t :: post) s) : ∃ s r, EventRun clients pre s ∧
      (t.call.run (s.clients t.who) s.toutCnt).Yields t.outcomes r ∧ t.ret = r.1 := by
  generalize hsteps : pre ++ t :: post = steps at hrun
  induction hrun generalizing post with
  | refl => exact absurd hsteps (by simp)
  | @call steps s i call outcomes r hrun h ih =>
    rcases List.eq_nil_or_concat post with rfl | ⟨post,t',rfl⟩
    · obtain ⟨rfl,ht⟩ := List.append_inj' hsteps rfl
      obtain rfl := List.head_eq_of_cons_eq ht
      exact ⟨s,r,hrun,h,rfl⟩
    · rw [List.concat_eq_append,← List.cons_append,← List.append_assoc] at hsteps
      exact ih (List.append_inj' hsteps rfl).1

theorem EventRun.unique {steps' : List (EventStep ι)} {s' : EventProcess ι}
    (hrun : EventRun clients steps s)
    (hrun' : EventRun clients steps' s')
    (hinput : steps.map EventStep.input = steps'.map EventStep.input) :
    steps = steps' ∧ s = s' := by
  induction hrun generalizing steps' s' with
  | refl =>
    cases hrun' with
    | refl => exact ⟨rfl,rfl⟩
    | call i call hrun' h => exact absurd hinput (by simp)
  | @call steps s i call outcomes r _ h ih =>
    cases hrun' with
    | refl => exact absurd hinput (by simp)
    | @call steps' s' i' call' outcomes' r' hrun' h' =>
      rw [List.map_append,List.map_append] at hinput
      obtain ⟨hpre,hlast⟩ := List.append_inj' hinput rfl
      obtain ⟨rfl,rfl⟩ := ih hrun' hpre
      simp only [List.map_cons,List.map_nil,EventStep.input,List.cons.injEq,Prod.mk.injEq,
        and_true] at hlast
      obtain ⟨rfl,rfl,rfl⟩ := hlast
      obtain rfl := h.unique h'
      exact ⟨rfl,rfl⟩

/-- The steps of client `i` alone are a run, and the only one with its calls and their outcomes: the
other calls changed no return value, `pid` or `hand`. -/
def Independent (clients : ι → MsgQClt) (steps : List (EventStep ι)) (i : ι) : Prop :=
  (∃ s, EventRun clients (steps.filter (·.who = i)) s) ∧
    ∀ alone s, EventRun clients alone s →
      alone.map EventStep.input = (steps.filter (·.who = i)).map EventStep.input →
        alone = steps.filter (·.who = i)

/-- At every timeout of client `i` the shared counter is above 10 exactly when the timeouts of `i`
alone make it so. -/
def CountsAgree (steps : List (EventStep ι)) (i : ι) : Prop :=
  ∀ pre t post, steps = pre ++ t :: post → t.who = i → t.timedOut →
    (toutCount (fun _ => true) pre > 10 ↔ toutCount (· = i) pre > 10)

theorem CountsAgree.of_snoc {t : EventStep ι} (h : CountsAgree (steps ++ [t]) i) :
    CountsAgree steps i := by
  intro pre u post hsteps
  exact h pre u (post ++ [t]) (by simp [hsteps])

/-- Where the counts agree the steps of the client alone are a run. -/
theorem EventRun.filter (hrun : EventRun clients steps s) (hagree : CountsAgree steps i) :
    ∃ s', EventRun clients (steps.filter (·.who = i)) s' ∧ s'.clients i = s.clients i := by
  induction hrun with
  | refl => exact ⟨_,.refl,rfl⟩
  | @call steps s j call outcomes r hrun h ih =>
    obtain ⟨s',hrun',hclient⟩ := ih hagree.of_snoc
    by_cases hj : j = i
    · subst hj
      have hspec := call.run_spec h
      rw [List.filter_append]
      simp only [List.filter_cons,decide_true,if_true,List.filter_nil]
      split at hspec
      · next htimes =>
        obtain ⟨hr,hany⟩ := hspec
        have hcount := hagree steps ⟨j,call,outcomes,r.1,r.2.1.pid,r.2.1.hand⟩ [] rfl rfl htimes
        rw [← toutCount_filter,← hrun'.toutCnt_eq,← hrun.toutCnt_eq] at hcount
        have hsame : ((s.clients j).afterTimeout s'.toutCnt).1 = r.1 ∧
            ((s.clients j).afterTimeout s'.toutCnt).2.1 = r.2.1 := by
          rw [hr]
          by_cases hs : s.toutCnt > 10
          · simp [afterTimeout,hs,hcount.mp hs]
          · simp [afterTimeout,hs,mt hcount.mpr hs]
        have hnext := hrun'.call j call (by rw [hclient]; exact hany s'.toutCnt)
        rw [hsame.1,hsame.2] at hnext
        exact ⟨_,hnext,by simp⟩
      · have hnext := hrun'.call j call (by rw [hclient]; exact hspec.2 s'.toutCnt)
        exact ⟨_,hnext,by simp⟩
    · refine ⟨s',?_,?_⟩
      · simpa [List.filter_append,hj] using hrun'
      · simpa [Ne.symm hj] using hclient

theorem EventRun.countsAgree {s' : EventProcess ι} (hrun : EventRun clients steps s)
    (hrun' : EventRun clients (steps.filter (·.who = i)) s') : CountsAgree steps i := by
  rintro pre t post rfl rfl (htimes : t.call.timesOut t.outcomes)
  obtain ⟨s₁,r₁,hpre₁,h₁,hret₁⟩ := hrun.split
  rw [List.filter_append,List.filter_cons_of_pos (by simp)] at hrun'
  obtain ⟨s₂,r₂,hpre₂,h₂,hret₂⟩ := hrun'.split
  rw [← toutCount_filter,← hpre₂.toutCnt_eq,← hpre₁.toutCnt_eq]
  have hspec₁ := t.call.run_spec h₁
  have hspec₂ := t.call.run_spec h₂
  rw [if_pos htimes] at hspec₁ hspec₂
  rw [hret₁,hspec₁.1,hspec₂.1] at hret₂
  -- a timeout returns -1 above the limit and 1 below
  by_cases hs₁ : s₁.toutCnt > 10 <;> by_cases hs₂ : s₂.toutCnt > 10 <;>
    simp [afterTimeout,hs₁,hs₂] at hret₂ ⊢

/-- A client does not notice the calls of the others exactly when at each of its timeouts the shared
counter and its own timeouts agree on whether there were too many. -/
theorem run_independent (hrun : EventRun clients steps s) (i : ι) :
    Independent clients steps i ↔ CountsAgree steps i := by
  constructor
  · rintro ⟨⟨s',hrun'⟩,-⟩
    exact hrun.countsAgree hrun'
  · intro hagree
    obtain ⟨s',hrun',-⟩ := hrun.filter hagree
    exact ⟨⟨s',hrun'⟩,fun alone _ halone hinput => (halone.unique hrun' hinput).1⟩

def execute (s : EventProcess ι) : List (EventStep ι) → Option (EventProcess ι)
  | [] => some s
  | t :: steps =>
    match Program.replay 40 (t.call.run (s.clients t.who) s.toutCnt) t.outcomes with
    | some r =>
      if t.ret = r.1 ∧ t.pid = r.2.1.pid ∧ t.hand = r.2.1.hand then
        execute ⟨Function.update s.clients t.who r.2.1,r.2.2⟩ steps
      else none
    | none => none

theorem EventRun.execute {steps' : List (EventStep ι)} {s' : EventProcess ι}
    (hrun : EventRun clients steps s)
    (hexec : MsgQClt.execute s steps' = some s') : EventRun clients (steps ++ steps') s' := by
  induction steps' generalizing steps s with
  | nil =>
    obtain rfl := Option.some.inj hexec
    simpa using hrun
  | cons t steps' ih =>
    rw [MsgQClt.execute] at hexec
    split at hexec
    · next r hreplay =>
      split at hexec
      · next hresult =>
        have hnext := hrun.call t.who t.call (Program.replay_yields hreplay)
        rw [← hresult.1,← hresult.2.1,← hresult.2.2] at hnext
        simpa using ih hnext hexec
      · exact absurd hexec (by simp)
    · exact absurd hexec (by simp)

/-- A client registers its event queue `eid` with the server 77. -/
def registerStep (who : Bool) (key : Char) (eid : ℤ) : EventStep Bool :=
  ⟨who,.requestevent (some [key]) 1,
    [⟨.stat messageQueuePath,.ok ()⟩,⟨.access (keyPath (eventName [key])),.ok ()⟩,
      ⟨.ftok (keyPath (eventName [key])) 1,.ok eid⟩,⟨.msgget eid 0o777,.ok eid⟩,
      ⟨.msgsnd 5 ⟨2,eid,[]⟩ true,.ok ()⟩,⟨.clockGettime,some ⟨0,0⟩⟩,
      ⟨.msgrcv eid messageQueueMaxSize 0 true,.ok ⟨2,77,[]⟩⟩],0,77,1⟩

def timeoutStep (who : Bool) (eid ret pid : ℤ) (hand : ℕ) : EventStep Bool :=
  ⟨who,.monitorevent 1,
    [⟨.clockGettime,some ⟨0,0⟩⟩,⟨.msgrcv eid messageQueueMaxSize 0 true,.error .ENOMSG⟩,
      ⟨.clockGettime,some ⟨0,2000000⟩⟩],ret,pid,hand⟩

def calmSteps : List (EventStep Bool) :=
  [registerStep true 'a' 10,registerStep false 'b' 11,timeoutStep true 10 1 77 1,
    timeoutStep false 11 1 77 1]

theorem calmSteps_agree : CountsAgree calmSteps false := by
  intro pre t post hsteps _ _
  have hcounts : ∀ n < 4, toutCount (fun _ => true) (calmSteps.take n) ≤ 10 ∧
      toutCount (· = false) (calmSteps.take n) ≤ 10 := by decide +kernel
  have hlength := congrArg List.length hsteps
  have hpre : calmSteps.take pre.length = pre := by rw [hsteps,List.take_left]
  have hlt : pre.length < 4 := by
    simp only [calmSteps,List.length_append,List.length_cons,List.length_nil] at hlength
    omega
  obtain ⟨hall,hown⟩ := hcounts pre.length hlt
  rw [hpre] at hall hown
  exact iff_of_false (by omega) (by omega)

theorem run_independent_calm : Independent (fun _ => ⟨5,0,0,0⟩) calmSteps false := by
  obtain ⟨s,hs⟩ := Option.isSome_iff_exists.mp
    (show (execute ⟨fun _ => ⟨5,0,0,0⟩,0⟩ calmSteps).isSome by decide +kernel)
  exact (run_independent (EventRun.refl.execute hs) false).mpr calmSteps_agree

/-- After eleven timeouts of one client the first timeout of the other one is too many. -/
def sharedSteps : List (EventStep Bool) :=
  [registerStep true 'a' 10,registerStep false 'b' 11] ++ List.replicate 11
  (timeoutStep true 10 1 77 1) ++
    [timeoutStep false 11 (-1) 0 0]

/-- Deleting the calls of the other client changes a return value. -/
theorem run_independent_fails : ¬ ∀ (clients : Bool → MsgQClt) (steps : List (EventStep Bool))
    (s : EventProcess Bool) (i : Bool), EventRun clients steps s → Independent clients steps i := by
  intro h
  obtain ⟨s,hs⟩ := Option.isSome_iff_exists.mp
    (show (execute ⟨fun _ => ⟨5,0,0,0⟩,0⟩ sharedSteps).isSome by decide +kernel)
  have hrun : EventRun (fun _ => ⟨5,0,0,0⟩) sharedSteps s := EventRun.refl.execute hs
  obtain ⟨⟨s',hrun'⟩,-⟩ := h _ _ s false hrun
  have hagree := hrun.countsAgree hrun' (sharedSteps.take 13) (timeoutStep false 11 (-1) 0 0)
    [] rfl rfl
    (by decide +kernel)
  exact absurd (hagree.mp (by decide +kernel)) (by decide +kernel)

end MsgQClt
end LixRtos
