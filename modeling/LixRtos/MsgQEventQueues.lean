import LixRtos.MsgQEvents

/-! What is in the queues of event clients. A queue holds events only, except between the
registration of its client and the response, which is then its first message; this needs that
nothing else reaches the queue in that time. -/
namespace LixRtos
namespace MsgQ

/-- `send_event` builds messages with xid 0, and responses have the pid of the server. -/
def isEvent (m : Message) : Bool := m.xid = 0

variable {ι : Type}

def ownerOf (owner : ℤ → Option ι) (w : EventWorld) (q : ℤ) : Option ι := (w.made q).bind owner

def ClientPhase.eid? : ClientPhase → Option ℤ
  | .off => none
  | .opened eid | .waiting eid | .listening eid | .handling eid _ => some eid

def Waited (ph : ι → ClientPhase) (q : ℤ) : Prop := ∃ i, ph i = .waiting q

/-- The registrations of a queue that the server has not yet answered. -/
def outstanding (srvQ : ℤ) (w : EventWorld) (pending : Option ℤ) (q : ℤ) : ℕ :=
  ((w.queue srvQ).getD []).countP (fun m => m.xid = q) + if pending = some q then 1 else 0

/-- The messages of a queue: `waits` says that its client waits for the response, and the flag that
the response has not been sent since the registration. -/
inductive Status (srvPid : ℤ) (waits : Prop) : Bool → ℕ → List Message → Prop
  | idle {l : List Message} (h : ¬ waits) (hl : ∀ m ∈ l, isEvent m) : Status srvPid waits false 0 l
  | awaited {n : ℕ} (h : waits) (hn : n ≤ 1) : Status srvPid waits true n []
  | answered {resp : Message} {l : List Message} (h : waits) (hresp : resp.xid = srvPid)
      (hl : ∀ m ∈ l, isEvent m) : Status srvPid waits false 0 (resp :: l)

/-- What holds between the queues, the phases of the clients, the registration that the server
answers, and what was put into each queue and taken from it. -/
structure EventInv (owner : ℤ → Option ι) (srvQ srvPid : ℤ) (w : EventWorld) (ph : ι → ClientPhase)
    (pending : Option ℤ) (awaiting : ℤ → Bool) (put : ℤ → List Message)
    (taken : ι → ℤ → List Message) : Prop where
  found : ∀ key q, w.ids key = some q → w.made q = some key
  range : ∀ q key, w.made q = some key → MsgQSrv.IsQueueId q
  existing : ∀ q, (w.queue q).isSome → (w.made q).isSome
  server : ownerOf owner w srvQ = none
  own : ∀ i q, (ph i).eid? = some q → ownerOf owner w q = some i
  registrations : ∃ l, w.queue srvQ = some l ∧ ∀ m ∈ l, (ownerOf owner w m.xid).isSome
  named : ∀ q, pending = some q → (ownerOf owner w q).isSome
  status : ∀ q l, q ≠ srvQ → w.queue q = some l →
    Status srvPid (Waited ph q) (awaiting q) (outstanding srvQ w pending q) l
  unmade : ∀ q, w.made q = none → awaiting q = false ∧ put q = []
  foreign : ∀ i q, ownerOf owner w q ≠ some i → taken i q = []
  history : ∀ i q, ownerOf owner w q = some i → ∃ rest, put q = taken i q ++ rest ∧
    ∀ l, w.queue q = some l → l.filter isEvent = rest

variable {owner : ℤ → Option ι} {srvQ srvPid : ℤ} {w w' : EventWorld} {ph ph' : ι → ClientPhase}
  {pending pending' : Option ℤ} {aw aw' : ℤ → Bool} {put put' : ℤ → List Message}
  {taken taken' : ι → ℤ → List Message} {i : ι} {q : ℤ} {m : Message} {l : List Message}

theorem Status.congr {waits waits' : Prop} {b : Bool} {n : ℕ} (h : Status srvPid waits b n l)
    (hw : waits' ↔ waits) : Status srvPid waits' b n l := by
  cases h with
  | idle h hl => exact .idle (mt hw.mp h) hl
  | awaited h hn => exact .awaited (hw.mpr h) hn
  | answered h hresp hl => exact .answered (hw.mpr h) hresp hl

theorem Status.drop {waits : Prop} {b : Bool} {n n' : ℕ} (h : Status srvPid waits b n l)
    (hn : n' ≤ n) :
    Status srvPid waits b n' l := by
  cases h with
  | idle h hl => rw [Nat.le_zero.mp hn]; exact .idle h hl
  | awaited h hn' => exact .awaited h (hn.trans hn')
  | answered h hresp hl => rw [Nat.le_zero.mp hn]; exact .answered h hresp hl

theorem Status.event {waits : Prop} {n : ℕ} (h : Status srvPid waits false n l) (hm : isEvent m) :
    Status srvPid waits false n (l ++ [m]) := by
  have hall {l : List Message} (hl : ∀ m ∈ l, isEvent m) : ∀ m' ∈ l ++ [m], isEvent m' := by
    intro m' hm'
    rcases List.mem_append.mp hm' with hm' | hm'
    · exact hl m' hm'
    · rw [List.mem_singleton.mp hm']
      exact hm
  cases h with
  | idle h hl => exact .idle h (hall hl)
  | answered h hresp hl => exact .answered h hresp (hall hl)

theorem Status.of_pos {waits : Prop} {b : Bool} {n : ℕ} (h : Status srvPid waits b n l) (hn : 0 < n) :
    waits ∧ n = 1 ∧ l = [] := by
  cases h with
  | idle => exact absurd hn (lt_irrefl 0)
  | awaited h hn' => exact ⟨h,by omega,rfl⟩
  | answered => exact absurd hn (lt_irrefl 0)

theorem Status.response {waits : Prop} {b : Bool} {n : ℕ} (h : Status srvPid waits b n (m :: l))
    (hw : waits) : b = false ∧ n = 0 ∧ m.xid = srvPid ∧ ∀ m ∈ l, isEvent m := by
  cases h with
  | idle h => exact absurd hw h
  | answered _ hresp hl => exact ⟨rfl,rfl,hresp,hl⟩

theorem Status.events {waits : Prop} {b : Bool} {n : ℕ} (h : Status srvPid waits b n l)
    (hw : ¬ waits) :
    b = false ∧ n = 0 ∧ ∀ m ∈ l, isEvent m := by
  cases h with
  | idle _ hl => exact ⟨rfl,rfl,hl⟩
  | awaited h => exact absurd h hw
  | answered h => exact absurd h hw

theorem outstanding_congr (h : w'.queue srvQ = w.queue srvQ) :
    outstanding srvQ w' pending q = outstanding srvQ w pending q := by
  rw [outstanding,h]
  rfl

theorem waited_update [DecidableEq ι] {p : ClientPhase} (hbefore : ph i ≠ .waiting q)
    (hafter : p ≠ .waiting q) : Waited (Function.update ph i p) q ↔ Waited ph q := by
  constructor
  · rintro ⟨j,hj⟩
    by_cases hji : j = i
    · subst hji
      rw [Function.update_self] at hj
      exact absurd hj hafter
    · rw [Function.update_of_ne hji] at hj
      exact ⟨j,hj⟩
  · rintro ⟨j,hj⟩
    have hji : j ≠ i := fun h => hbefore (h ▸ hj)
    exact ⟨j,by rwa [Function.update_of_ne hji]⟩

namespace EventInv

theorem eid_ne (h : EventInv owner srvQ srvPid w ph pending aw put taken) (hi : (ph i).eid? = some q) :
    q ≠ srvQ := by
  rintro rfl
  have howner := h.own i q hi
  rw [h.server] at howner
  exact absurd howner (by simp)

theorem eid_unique (h : EventInv owner srvQ srvPid w ph pending aw put taken)
    (hi : (ph i).eid? = some q)
    {j : ι} (hj : (ph j).eid? = some q) : j = i :=
  Option.some.inj ((h.own j q hj).symm.trans (h.own i q hi))

theorem not_waited (h : EventInv owner srvQ srvPid w ph pending aw put taken)
    (hi : (ph i).eid? = some q)
    (hne : ph i ≠ .waiting q) : ¬ Waited ph q := by
  rintro ⟨j,hj⟩
  have hji : j = i := h.eid_unique hi (by rw [hj]; rfl)
  exact hne (hji ▸ hj)

theorem not_waited_update [DecidableEq ι] (h : EventInv owner srvQ srvPid w ph pending aw put taken)
    (hi : (ph i).eid? = some q) {p : ClientPhase} (hp : p ≠ .waiting q) :
    ¬ Waited (Function.update ph i p) q := by
  rintro ⟨j,hj⟩
  by_cases hji : j = i
  · subst hji
    rw [Function.update_self] at hj
    exact hp hj
  · rw [Function.update_of_ne hji] at hj
    exact hji (h.eid_unique hi (by rw [hj]; rfl))

theorem own_update [DecidableEq ι] (h : EventInv owner srvQ srvPid w ph pending aw put taken)
    {p : ClientPhase} (hp : ∀ q, p.eid? = some q → ownerOf owner w q = some i) (j : ι) (q : ℤ)
    (hj : (Function.update ph i p j).eid? = some q) : ownerOf owner w q = some j := by
  by_cases hji : j = i
  · subst hji
    rw [Function.update_self] at hj
    exact hp q hj
  · rw [Function.update_of_ne hji] at hj
    exact h.own j q hj

theorem change (h : EventInv owner srvQ srvPid w ph pending aw put taken) (hq : q ≠ srvQ)
    (hexists : (w.queue q).isSome) (hmade : w'.made = w.made)
    (hids : ∀ key q', w'.ids key = some q' → w.ids key = some q')
    (hqueue : ∀ q', q' ≠ q → w'.queue q' = w.queue q')
    (hown : ∀ i q', (ph' i).eid? = some q' → ownerOf owner w q' = some i)
    (hpending : ∀ q', pending' = some q' → pending = some q')
    (hothers : ∀ q', q' ≠ q → (Waited ph' q' ↔ Waited ph q') ∧ aw' q' = aw q' ∧ put' q' = put q' ∧
      (pending' = some q' ↔ pending = some q') ∧ ∀ i, taken' i q' = taken i q')
    (hstatus : ∀ l, w'.queue q = some l →
      Status srvPid (Waited ph' q) (aw' q) (outstanding srvQ w' pending' q) l)
    (hforeign : ∀ i, ownerOf owner w q ≠ some i → taken' i q = [])
    (hhistory : ∀ i, ownerOf owner w q = some i → ∃ rest, put' q = taken' i q ++ rest ∧
      ∀ l, w'.queue q = some l → l.filter isEvent = rest) :
    EventInv owner srvQ srvPid w' ph' pending' aw' put' taken' := by
  have howner (q' : ℤ) : ownerOf owner w' q' = ownerOf owner w q' := by rw [ownerOf,hmade]; rfl
  have hne {q' : ℤ} (hq' : w.made q' = none) : q' ≠ q := by
    rintro rfl
    have := h.existing q' hexists
    simp [hq'] at this
  refine ⟨?_,?_,?_,?_,?_,?_,?_,?_,?_,?_,?_⟩
  · intro key q' hkey
    rw [hmade]
    exact h.found key q' (hids key q' hkey)
  · rw [hmade]
    exact h.range
  · intro q' hq'
    rw [hmade]
    by_cases hqq : q' = q
    · exact h.existing q' (hqq ▸ hexists)
    · exact h.existing q' (hqueue q' hqq ▸ hq')
  · rw [howner]
    exact h.server
  · intro i q' hi
    rw [howner]
    exact hown i q' hi
  · obtain ⟨l,hl,hreg⟩ := h.registrations
    exact ⟨l,by rw [hqueue srvQ hq.symm,hl],fun m hm => by rw [howner]; exact hreg m hm⟩
  · intro q' hq'
    rw [howner]
    exact h.named q' (hpending q' hq')
  · intro q' l hne' hl
    by_cases hqq : q' = q
    · subst hqq
      exact hstatus l hl
    · obtain ⟨hwaited,haw,_,hpend,_⟩ := hothers q' hqq
      rw [hqueue q' hqq] at hl
      have hout : outstanding srvQ w' pending' q' = outstanding srvQ w pending q' := by
        simp only [outstanding,hqueue srvQ hq.symm,hpend]
      rw [haw,hout]
      exact (h.status q' l hne' hl).congr hwaited
  · intro q' hq'
    rw [hmade] at hq'
    obtain ⟨_,haw,hput,_⟩ := hothers q' (hne hq')
    rw [haw,hput]
    exact h.unmade q' hq'
  · intro i q' hq'
    rw [howner] at hq'
    by_cases hqq : q' = q
    · subst hqq
      exact hforeign i hq'
    · rw [(hothers q' hqq).2.2.2.2 i]
      exact h.foreign i q' hq'
  · intro i q' hq'
    rw [howner] at hq'
    by_cases hqq : q' = q
    · subst hqq
      exact hhistory i hq'
    · rw [hqueue q' hqq,(hothers q' hqq).2.2.1,(hothers q' hqq).2.2.2.2 i]
      exact h.history i q' hq'

theorem quiet [DecidableEq ι] (h : EventInv owner srvQ srvPid w ph pending aw put taken)
    {p : ClientPhase}
    (hown : ∀ q, p.eid? = some q → ownerOf owner w q = some i)
    (hwaits : ∀ q l, w.queue q = some l → ph i ≠ .waiting q ∧ p ≠ .waiting q) :
    EventInv owner srvQ srvPid w (Function.update ph i p) pending aw put taken :=
  { h with
    own := h.own_update hown
    status := fun q l hq hl =>
      (h.status q l hq hl).congr (waited_update (hwaits q l hl).1 (hwaits q l hl).2) }

theorem ownerOf_unmade (hmade : w.made q = none) : ownerOf owner w q = none := by
  rw [ownerOf,hmade]
  rfl

theorem ownerOf_make {key q' : ℤ} (hne : q' ≠ q) :
    ownerOf owner (w.make key q) q' = ownerOf owner w q' := by
  simp [ownerOf,EventWorld.make,hne]

theorem ne_of_owned {q' : ℤ} (hmade : w.made q = none) (h : (ownerOf owner w q').isSome) : q' ≠ q := by
  rintro rfl
  simp [ownerOf_unmade hmade] at h

theorem unmade_ne_server (h : EventInv owner srvQ srvPid w ph pending aw put taken)
    (hmade : w.made q = none) :
    q ≠ srvQ := by
  rintro rfl
  obtain ⟨l,hl,_⟩ := h.registrations
  have := h.existing q (by rw [hl]; rfl)
  simp [hmade] at this

theorem unmade_not_waited [DecidableEq ι] (h : EventInv owner srvQ srvPid w ph pending aw put taken)
    (hmade : w.made q = none) {p : ClientPhase} (hp : p ≠ .waiting q) :
    ¬ Waited (Function.update ph i p) q := by
  rintro ⟨j,hj⟩
  by_cases hji : j = i
  · subst hji
    rw [Function.update_self] at hj
    exact hp hj
  · rw [Function.update_of_ne hji] at hj
    have := h.own j q (by rw [hj]; rfl)
    simp [ownerOf_unmade hmade] at this

theorem unmade_outstanding (h : EventInv owner srvQ srvPid w ph pending aw put taken)
    (hmade : w.made q = none) :
    outstanding srvQ w pending q = 0 := by
  obtain ⟨l,hl,hreg⟩ := h.registrations
  rw [outstanding,hl,if_neg fun hp => ne_of_owned hmade (h.named q hp) rfl]
  simp only [Option.getD_some,Nat.add_zero,List.countP_eq_zero,decide_eq_true_eq]
  exact fun m hm hxid => ne_of_owned hmade (hreg m hm) hxid

theorem make [DecidableEq ι] (h : EventInv owner srvQ srvPid w ph pending aw put taken) {key : ℤ}
    (hmade : w.made q = none) (hrange : MsgQSrv.IsQueueId q) (howner : owner key = some i)
    (hunbound : (ph i).Unbound) : EventInv owner srvQ srvPid (w.make key q)
      (Function.update ph i (.opened q)) pending aw put taken := by
  have hsrv := h.unmade_ne_server hmade
  have hnone : ownerOf owner w q = none := ownerOf_unmade hmade
  have hgrow (q' : ℤ) (hq' : (ownerOf owner w q').isSome) :
      (ownerOf owner (w.make key q) q').isSome := by
    rw [ownerOf_make (ne_of_owned hmade hq')]
    exact hq'
  have hempty (l : List Message) (hl : (w.make key q).queue q = some l) : l = [] := by
    rw [w.make_queue_self] at hl
    exact (Option.some.inj hl).symm
  have hout (q' : ℤ) : outstanding srvQ (w.make key q) pending q' = outstanding srvQ w pending q' :=
    outstanding_congr (w.make_queue_of_ne hsrv.symm)
  have hbefore (q' : ℤ) : ph i ≠ .waiting q' := fun hi => by rw [hi] at hunbound; exact hunbound
  refine ⟨?_,?_,?_,?_,?_,?_,fun q' hq' => hgrow q' (h.named q' hq'),?_,?_,?_,?_⟩
  · intro key' q' hkey
    rw [w.make_ids] at hkey
    rw [w.make_made]
    split at hkey
    · next hk =>
      obtain rfl := Option.some.inj hkey
      rw [if_pos rfl,hk]
    · have hfound := h.found key' q' hkey
      rw [if_neg (by rintro rfl; simp [hmade] at hfound)]
      exact hfound
  · intro q' key' hq'
    rw [w.make_made] at hq'
    split at hq'
    · next hqq => exact hqq ▸ hrange
    · exact h.range q' key' hq'
  · intro q' hq'
    rw [w.make_made]
    split
    · rfl
    · next hqq =>
      rw [w.make_queue_of_ne hqq] at hq'
      exact h.existing q' hq'
  · rw [ownerOf_make hsrv.symm]
    exact h.server
  · intro j q' hj
    by_cases hji : j = i
    · subst hji
      rw [Function.update_self] at hj
      obtain rfl := Option.some.inj hj
      simp [ownerOf,EventWorld.make,howner]
    · rw [Function.update_of_ne hji] at hj
      have hown := h.own j q' hj
      rwa [ownerOf_make (ne_of_owned hmade (by rw [hown]; rfl))]
  · obtain ⟨l,hl,hreg⟩ := h.registrations
    exact ⟨l,by rw [w.make_queue_of_ne hsrv.symm,hl],fun m hm => hgrow m.xid (hreg m hm)⟩
  · intro q' l' hne hl'
    rw [hout]
    by_cases hqq : q' = q
    · subst hqq
      rw [h.unmade_outstanding hmade,(h.unmade q' hmade).1,hempty l' hl']
      exact .idle (h.unmade_not_waited hmade (by simp)) fun m hm => absurd hm List.not_mem_nil
    · rw [w.make_queue_of_ne hqq] at hl'
      refine (h.status q' l' hne hl').congr (waited_update (hbefore q') fun hp => ?_)
      exact absurd hp (by simp)
  · intro q' hq'
    rw [w.make_made] at hq'
    split at hq'
    · exact absurd hq' (by simp)
    · exact h.unmade q' hq'
  · intro j q' hj
    by_cases hqq : q' = q
    · subst hqq
      exact h.foreign j q' (by simp [hnone])
    · rw [ownerOf_make hqq] at hj
      exact h.foreign j q' hj
  · intro j q' hj
    by_cases hqq : q' = q
    · subst hqq
      refine ⟨[],?_,fun l' hl' => ?_⟩
      · rw [(h.unmade q' hmade).2,h.foreign j q' (by simp [hnone])]
        rfl
      · rw [hempty l' hl']
        rfl
    · rw [ownerOf_make hqq] at hj
      rw [w.make_queue_of_ne hqq]
      exact h.history j q' hj

theorem remove [DecidableEq ι] (h : EventInv owner srvQ srvPid w ph pending aw put taken)
    (hi : (ph i).eid? = some q) (hexists : (w.queue q).isSome) :
    EventInv owner srvQ srvPid (w.remove q) (Function.update ph i .off) pending aw put taken := by
  have hgone : (w.remove q).queue q = none := Function.update_self ..
  refine h.change (h.eid_ne hi) hexists rfl ?_ (fun q' hq' => Function.update_of_ne hq' ..)
    (h.own_update fun q' hq' => absurd hq' (by simp [ClientPhase.eid?])) (fun _ hq' => hq') ?_ ?_
    (fun j hj => h.foreign j q hj) ?_
  · intro key q' hkey
    simp only [EventWorld.remove] at hkey
    split at hkey
    · exact absurd hkey (by simp)
    · exact hkey
  · intro q' hq'
    refine ⟨waited_update (fun hw => ?_) (by simp),rfl,rfl,Iff.rfl,fun _ => rfl⟩
    rw [hw] at hi
    exact hq' (Option.some.inj hi)
  · intro l hl
    simp [hgone] at hl
  · intro j hj
    obtain ⟨rest,hrest,_⟩ := h.history j q hj
    exact ⟨rest,hrest,fun l hl => by simp [hgone] at hl⟩

theorem event (h : EventInv owner srvQ srvPid w ph pending aw put taken) (hq : q ≠ srvQ)
    (hl : w.queue q = some l) (haw : aw q = false) (hm : isEvent m) :
    EventInv owner srvQ srvPid (w.setQueue q (some (l ++ [m]))) ph pending aw
      (Function.update put q (put q ++ [m])) taken := by
  refine h.change hq (by rw [hl]; rfl) rfl (fun _ _ hkey => hkey) (fun q' => w.setQueue_of_ne _)
    h.own (fun _ hq' => hq') ?_ ?_ (fun j hj => h.foreign j q hj) ?_
  · exact fun q' hq' => ⟨Iff.rfl,rfl,Function.update_of_ne hq' ..,Iff.rfl,fun _ => rfl⟩
  · intro l' hl'
    rw [w.setQueue_self,Option.some.injEq] at hl'
    rw [outstanding_congr (w.setQueue_of_ne _ hq.symm),← hl']
    have hstatus := h.status q l hq hl
    rw [haw] at hstatus ⊢
    exact hstatus.event hm
  · intro j hj
    obtain ⟨rest,hrest,hqueue⟩ := h.history j q hj
    refine ⟨rest ++ [m],?_,fun l' hl' => ?_⟩
    · rw [Function.update_self,hrest,List.append_assoc]
    · rw [w.setQueue_self,Option.some.injEq] at hl'
      rw [← hl',List.filter_append,hqueue l hl]
      simp [hm]

theorem respond (h : EventInv owner srvQ srvPid w ph (some q) aw put taken) (hq : q ≠ srvQ)
    (hl : w.queue q = some l) (hm : m.xid = srvPid) (hpid : srvPid ≠ 0) :
    EventInv owner srvQ srvPid (w.setQueue q (some (l ++ [m]))) ph none
      (Function.update aw q false) put taken := by
  obtain ⟨hwaited,hone,rfl⟩ := (h.status q l hq hl).of_pos (by simp [outstanding])
  have hevent : isEvent m = false := by simp [isEvent,hm,hpid]
  refine h.change hq (by rw [hl]; rfl) rfl (fun _ _ hkey => hkey) (fun q' => w.setQueue_of_ne _)
    h.own (fun _ hq' => absurd hq' (by simp)) ?_ ?_ (fun j hj => h.foreign j q hj) ?_
  · intro q' hq'
    refine ⟨Iff.rfl,Function.update_of_ne hq' ..,rfl,?_,fun _ => rfl⟩
    simp [hq'.symm]
  · intro l' hl'
    rw [w.setQueue_self,Option.some.injEq] at hl'
    have hout : outstanding srvQ (w.setQueue q (some ([] ++ [m]))) none q = 0 := by
      rw [outstanding_congr (w.setQueue_of_ne _ hq.symm)]
      simpa [outstanding] using hone
    rw [hout,← hl',Function.update_self]
    exact .answered hwaited hm fun m hm => absurd hm List.not_mem_nil
  · intro j hj
    obtain ⟨rest,hrest,hqueue⟩ := h.history j q hj
    refine ⟨rest,hrest,fun l' hl' => ?_⟩
    rw [w.setQueue_self,Option.some.injEq] at hl'
    rw [← hl',← hqueue [] hl]
    simp [hevent]

theorem response [DecidableEq ι] (h : EventInv owner srvQ srvPid w ph pending aw put taken)
    (hi : ph i = .waiting q) (hl : w.queue q = some (m :: l)) (hpid : srvPid ≠ 0) :
    m.xid = srvPid ∧ EventInv owner srvQ srvPid (w.setQueue q (some l))
      (Function.update ph i (.listening q)) pending aw put taken := by
  have heid : (ph i).eid? = some q := by rw [hi]; rfl
  have hq := h.eid_ne heid
  obtain ⟨haw,hout,hresp,hevents⟩ := (h.status q _ hq hl).response ⟨i,hi⟩
  have hevent : isEvent m = false := by simp [isEvent,hresp,hpid]
  refine ⟨hresp,h.change hq (by rw [hl]; rfl) rfl (fun _ _ hkey => hkey) (fun q' => w.setQueue_of_ne _)
    (h.own_update ?_) (fun _ hq' => hq') ?_ ?_ (fun j hj => h.foreign j q hj) ?_⟩
  · rintro q' hq'
    obtain rfl := Option.some.inj hq'
    exact h.own i q heid
  · intro q' hq'
    refine ⟨waited_update ?_ (by simp),rfl,rfl,Iff.rfl,fun _ => rfl⟩
    rw [hi]
    simpa using hq'.symm
  · intro l' hl'
    rw [w.setQueue_self,Option.some.injEq] at hl'
    rw [outstanding_congr (w.setQueue_of_ne _ hq.symm),hout,haw,← hl']
    exact .idle (h.not_waited_update heid (by simp)) hevents
  · intro j hj
    obtain ⟨rest,hrest,hqueue⟩ := h.history j q hj
    refine ⟨rest,hrest,fun l' hl' => ?_⟩
    rw [w.setQueue_self,Option.some.injEq] at hl'
    rw [← hl',← hqueue _ hl]
    simp [hevent]

theorem take [DecidableEq ι] (h : EventInv owner srvQ srvPid w ph pending aw put taken)
    (hi : ph i = .listening q) (hl : w.queue q = some (m :: l)) :
    isEvent m ∧ EventInv owner srvQ srvPid (w.setQueue q (some l))
      (Function.update ph i (.handling q m)) pending aw put
      (Function.update taken i (Function.update (taken i) q (taken i q ++ [m]))) := by
  have heid : (ph i).eid? = some q := by rw [hi]; rfl
  have hq := h.eid_ne heid
  have hown := h.own i q heid
  obtain ⟨haw,hout,hevents⟩ := (h.status q _ hq hl).events (h.not_waited heid (by simp [hi]))
  have hevent : isEvent m := hevents m List.mem_cons_self
  refine ⟨hevent,h.change hq (by rw [hl]; rfl) rfl (fun _ _ hkey => hkey)
    (fun q' => w.setQueue_of_ne _)
    (h.own_update ?_) (fun _ hq' => hq') ?_ ?_ ?_ ?_⟩
  · rintro q' hq'
    obtain rfl := Option.some.inj hq'
    exact hown
  · intro q' hq'
    refine ⟨waited_update (by simp [hi]) (by simp),rfl,rfl,Iff.rfl,fun j => ?_⟩
    by_cases hji : j = i
    · subst hji
      rw [Function.update_self,Function.update_of_ne hq']
    · rw [Function.update_of_ne hji]
  · intro l' hl'
    rw [w.setQueue_self,Option.some.injEq] at hl'
    rw [outstanding_congr (w.setQueue_of_ne _ hq.symm),hout,haw,← hl']
    exact .idle (h.not_waited_update heid (by simp)) fun m hm => hevents m (List.mem_cons_of_mem _ hm)
  · intro j hj
    have hji : j ≠ i := fun hji => hj (hji ▸ hown)
    rw [Function.update_of_ne hji]
    exact h.foreign j q hj
  · intro j hj
    obtain rfl : j = i := Option.some.inj (hj.symm.trans hown)
    obtain ⟨rest,hrest,hqueue⟩ := h.history j q hj
    refine ⟨l.filter isEvent,?_,fun l' hl' => ?_⟩
    · rw [Function.update_self,Function.update_self,hrest,← hqueue _ hl,List.filter_cons_of_pos hevent,
        List.append_assoc]
      rfl
    · rw [w.setQueue_self,Option.some.injEq] at hl'
      rw [hl']

theorem register [DecidableEq ι] (h : EventInv owner srvQ srvPid w ph pending aw put taken)
    (hi : ph i = .opened q) (hempty : w.queue q = some []) (hl : w.queue srvQ = some l)
    (hm : m.xid = q) :
    EventInv owner srvQ srvPid (w.setQueue srvQ (some (l ++ [m]))) (Function.update ph i (.waiting q))
      pending (Function.update aw q true) put taken := by
  have heid : (ph i).eid? = some q := by rw [hi]; rfl
  have hq := h.eid_ne heid
  have hown := h.own i q heid
  have hqueue (q' : ℤ) (hq' : q' ≠ srvQ) :
      (w.setQueue srvQ (some (l ++ [m]))).queue q' = w.queue q' := w.setQueue_of_ne _ hq'
  obtain ⟨haw,hout,_⟩ := (h.status q _ hq hempty).events (h.not_waited heid (by simp [hi]))
  have hnext (q' : ℤ) : outstanding srvQ (w.setQueue srvQ (some (l ++ [m]))) pending q' =
      outstanding srvQ w pending q' + if q = q' then 1 else 0 := by
    simp only [outstanding,w.setQueue_self,hl,Option.getD_some,List.countP_append,
      List.countP_singleton,hm]
    simp only [decide_eq_true_eq]
    omega
  refine { h with
    existing := ?_
    own := h.own_update ?_
    registrations := ⟨l ++ [m],w.setQueue_self .. ,?_⟩
    status := ?_
    unmade := ?_
    history := ?_ }
  · intro q' hq'
    by_cases hs : q' = srvQ
    · exact h.existing q' (by rw [hs,hl]; rfl)
    · rw [hqueue q' hs] at hq'
      exact h.existing q' hq'
  · rintro q' hq'
    obtain rfl := Option.some.inj hq'
    exact hown
  · intro m' hm'
    obtain ⟨l',hl',hreg⟩ := h.registrations
    obtain rfl : l = l' := Option.some.inj (hl.symm.trans hl')
    rcases List.mem_append.mp hm' with hm' | hm'
    · exact hreg m' hm'
    · rw [List.mem_singleton.mp hm',hm]
      have : ownerOf owner w q = some i := hown
      exact Option.isSome_iff_exists.mpr ⟨i,this⟩
  · intro q' l' hne hl'
    rw [hqueue q' hne] at hl'
    rw [hnext]
    by_cases hqq : q' = q
    · subst hqq
      obtain rfl : l' = [] := Option.some.inj (hl'.symm.trans hempty)
      rw [Function.update_self,hout,if_pos rfl]
      exact .awaited ⟨i,Function.update_self ..⟩ le_rfl
    · rw [Function.update_of_ne hqq,if_neg (Ne.symm hqq)]
      refine (h.status q' l' hne hl').congr (waited_update (by simp [hi]) ?_)
      simpa using Ne.symm hqq
  · intro q' hq'
    have hqq : q' ≠ q := by
      rintro rfl
      have := h.existing q' (by rw [hempty]; rfl)
      have hnone : w.made q' = none := hq'
      simp [hnone] at this
    rw [Function.update_of_ne hqq]
    exact h.unmade q' hq'
  · intro j q' hj
    have hne : q' ≠ srvQ := by
      rintro rfl
      have hnone := h.server
      have hsome : ownerOf owner w q' = some j := hj
      simp [hnone] at hsome
    rw [hqueue q' hne]
    exact h.history j q' hj

theorem dequeue (h : EventInv owner srvQ srvPid w ph pending aw put taken) {ys zs : List Message}
    (hl : w.queue srvQ = some (ys ++ m :: zs)) :
    MsgQSrv.IsQueueId m.xid ∧ EventInv owner srvQ srvPid (w.setQueue srvQ (some (ys ++ zs))) ph
      (some m.xid) aw put taken := by
  obtain ⟨l,hl',hreg⟩ := h.registrations
  obtain rfl : ys ++ m :: zs = l := Option.some.inj (hl.symm.trans hl')
  have howner := hreg m (by simp)
  have hqueue (q' : ℤ) (hq' : q' ≠ srvQ) :
      (w.setQueue srvQ (some (ys ++ zs))).queue q' = w.queue q' := w.setQueue_of_ne _ hq'
  have hnext (q' : ℤ) : outstanding srvQ (w.setQueue srvQ (some (ys ++ zs))) (some m.xid) q' ≤
      outstanding srvQ w pending q' := by
    simp only [outstanding,w.setQueue_self,hl,Option.getD_some,List.countP_append,List.countP_cons,
      Option.some.injEq,decide_eq_true_eq]
    split <;> omega
  constructor
  · obtain ⟨key,hkey⟩ : ∃ key, w.made m.xid = some key := by
      rw [ownerOf] at howner
      cases hmade : w.made m.xid with
      | none => simp [hmade] at howner
      | some key => exact ⟨key,rfl⟩
    exact h.range m.xid key hkey
  · refine { h with
      existing := ?_
      registrations := ⟨ys ++ zs,w.setQueue_self ..,fun m' hm' => hreg m' ?_⟩
      named := ?_
      status := ?_
      history := ?_ }
    · intro q' hq'
      by_cases hs : q' = srvQ
      · exact h.existing q' (by rw [hs,hl]; rfl)
      · rw [hqueue q' hs] at hq'
        exact h.existing q' hq'
    · simp only [List.mem_append,List.mem_cons] at hm' ⊢
      exact hm'.imp_right Or.inr
    · intro q' hq'
      obtain rfl := Option.some.inj hq'
      exact howner
    · intro q' l' hne hl'
      rw [hqueue q' hne] at hl'
      exact (h.status q' l' hne hl').drop (hnext q')
    · intro j q' hj
      have hne : q' ≠ srvQ := by
        rintro rfl
        have hnone := h.server
        have hsome : ownerOf owner w q' = some j := hj
        simp [hnone] at hsome
      rw [hqueue q' hne]
      exact h.history j q' hj

theorem heap (h : EventInv owner srvQ srvPid w ph pending aw put taken) (a : List ℕ) :
    EventInv owner srvQ srvPid { w with heap := a } ph pending aw put taken := { h with }

end EventInv
end MsgQ
end LixRtos
