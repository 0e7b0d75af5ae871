import LixRtos.Cond
import LixRtos.Notes

/-! Threads that notify and wait with one condition variable. `cond_var_wait` does not look at the
status, so that it may wait for a change that is over and may return before any change. -/
namespace LixRtos
namespace CondVar

inductive CondCall
  | changed
  | broadcast
  | wait
  deriving DecidableEq

def CondCall.run (cond : Option CondVar) : CondCall → Sys ℤ
  | .changed => condVarChanged cond
  | .broadcast => condVarBroadcast cond
  | .wait => condVarWait cond

inductive CondNote
  | begins (call : CondCall)
  | returns (call : CondCall)
  deriving DecidableEq

abbrev ThreadCall := SysCall ⊕ CondNote

abbrev ThreadAnswer : ThreadCall → Type := Program.NotedAnswer SysCall.Answer CondNote

def condUser (cond : CondVar) (script : ℕ → CondCall) : Program ThreadCall ThreadAnswer Unit :=
  Program.iterate (fun n : ℕ => do
    Program.note (.begins (script n))
    let _ ← Program.noted ((script n).run (some cond))
    Program.note (.returns (script n))
    pure (.inl (n+1))) 0

variable {ι : Type}

/-- The owner of the mutex, the status, and the threads in `pthread_cond_wait`: those that are
blocked, in order, and those that were woken and do not have the mutex yet. -/
structure CondWorld (ι : Type) where
  owner : Option ι
  status : ℕ
  blocked : List ι
  woken : List ι

def serveCond [DecidableEq ι] (cond : CondVar) (w : CondWorld ι) (i : ι) :
    (c : SysCall) → c.Answer → Option (CondWorld ι)
  | .mutexLock _, .ok _ => if w.owner.isNone then some { w with owner := some i } else none
  | .mutexUnlock _, .ok _ => some { w with owner := none }
  | .store addr val, _ => some (if addr = cond.status then { w with status := val } else w)
  | .condSignal _, k =>
    match w.blocked[k]? with
    | some j => some { w with blocked := w.blocked.eraseIdx k, woken := j :: w.woken }
    | none => if w.blocked = [] then some w else none
  | .condBroadcast _, _ => some { w with blocked := [], woken := w.blocked ++ w.woken }
  | .condBlock _ _, _ => some { w with owner := none, blocked := w.blocked ++ [i] }
  | .condWake _ _, _ =>
    if w.owner.isNone ∧ (i ∈ w.blocked ∨ i ∈ w.woken) then
      some { w with owner := some i, blocked := w.blocked.erase i, woken := w.woken.erase i }
    else none
  | _, _ => some w

def condUsers (cond : CondVar) (scripts : ι → ℕ → CondCall) :
    Program.Config ι (CondWorld ι) ThreadCall ThreadAnswer where
  world := ⟨none,conditionNochanged,[],[]⟩
  procs i := condUser cond (scripts i)

abbrev CondEvent (ι : Type) := Program.Event ι ThreadCall ThreadAnswer

def isBlocked [DecidableEq ι] (tr : List (CondEvent ι)) (i : ι) : Bool :=
  tr.foldl (fun blocked e =>
    if e.pid = i then
      match e.call with
      | .inl (.condBlock _ _) => true
      | .inl (.condWake _ _) => false
      | _ => blocked
    else blocked) false

def IsReturn (call : CondCall) (e : CondEvent ι) : Prop := e.call = .inr (.returns call)

def IsNotified (e : CondEvent ι) : Prop := IsReturn .changed e ∨ IsReturn .broadcast e

def Notified (tr : List (CondEvent ι)) : Prop :=
  ∃ e ∈ tr, e.call = .inr (.begins .changed) ∨ e.call = .inr (.begins .broadcast)

/-- A notification completed while no thread was blocked, and no wait has returned since. -/
def Unanswered [DecidableEq ι] (tr : List (CondEvent ι)) : Prop :=
  ∃ before e after, tr = before ++ e :: after ∧ IsNotified e ∧ (∀ j, isBlocked before j = false) ∧
    ∀ e' ∈ after, ¬ IsReturn .wait e'

/-- A thread is blocked in a wait that began after such a notification. -/
def Forgotten [DecidableEq ι] (tr : List (CondEvent ι)) (i : ι) : Prop :=
  isBlocked tr i ∧ ∃ before e after, tr = before ++ e :: after ∧ e.pid = i ∧
    e.call = .inr (.begins .wait) ∧ Unanswered before ∧ ∀ e' ∈ after, ¬ IsReturn .wait e'

/-- A thread has signalled or broadcast in a notification that has not returned. -/
def isSignalling [DecidableEq ι] (tr : List (CondEvent ι)) (i : ι) : Bool :=
  tr.foldl (fun signalling e =>
    if e.pid = i then
      match e.call with
      | .inl (.condSignal _) => true
      | .inl (.condBroadcast _) => true
      | .inr (.returns _) => false
      | _ => signalling
    else signalling) false

/-- A notification signals only while a thread is blocked, and until it returns the last thread that
is blocked does not go on. -/
def Attended [DecidableEq ι] (w : CondWorld ι) (tr : List (CondEvent ι)) (e : CondEvent ι) : Prop :=
  (∀ cond, e.call = .inl (.condSignal cond) ∨ e.call = .inl (.condBroadcast cond) → w.blocked ≠ []) ∧
  ∀ cond mux, e.call = .inl (.condWake cond mux) → (∃ j ∈ w.blocked ++ w.woken, j ≠ e.pid) ∨
    ∀ j, isSignalling tr j = false

/-- A thread that goes on was woken, or a notification has been called. -/
def NotSpurious (w : CondWorld ι) (tr : List (CondEvent ι)) (e : CondEvent ι) : Prop :=
  ∀ cond mux, e.call = .inl (.condWake cond mux) → e.pid ∈ w.woken ∨ Notified tr

/-- Where a thread is: in no call, in a notification before its signal or behind it, in a wait
before it blocks, blocked, or behind that. -/
inductive CondPhase
  | idle
  | notifying
  | signalled
  | entering
  | blocked
  | leaving
  deriving DecidableEq

/-- A notification returns only after it signalled, and a wait only after it blocked and went on. -/
def monitors : Program.Protocol ThreadCall ThreadAnswer CondPhase where
  allows
    | ph, .inl (.condSignal _) => ph = .notifying
    | ph, .inl (.condBroadcast _) => ph = .notifying
    | ph, .inl (.condBlock _ _) => ph = .entering
    | ph, .inl (.condWake _ _) => ph = .blocked
    | ph, .inr (.begins _) => ph = .idle
    | ph, .inr (.returns .wait) => ph = .leaving
    | ph, .inr (.returns _) => ph = .signalled
    | _, _ => True
  answers _ _ _ := True
  next
    | _, .inr (.begins .wait), _ => .entering
    | _, .inr (.begins _), _ => .notifying
    | _, .inr (.returns _), _ => .idle
    | _, .inl (.condSignal _), _ => .signalled
    | _, .inl (.condBroadcast _), _ => .signalled
    | _, .inl (.condBlock _ _), _ => .blocked
    | _, .inl (.condWake _ _), _ => .leaving
    | ph, _, _ => ph

def CondCall.done : CondCall → CondPhase
  | .wait => .leaving
  | _ => .signalled

theorem condCall_follows (cond : CondVar) (call : CondCall) :
    (call.run (some cond)).Follows monitors.unnoted (monitors.next .idle (.inr (.begins call)) ())
      fun ph _ => ph = call.done := by
  cases call with
  | changed =>
    exact ⟨trivial,fun _ _ => ⟨trivial,fun _ _ => ⟨trivial,fun _ _ => ⟨rfl,fun _ _ => rfl⟩⟩⟩⟩
  | broadcast =>
    exact ⟨trivial,fun _ _ => ⟨trivial,fun _ _ => ⟨trivial,fun _ _ => ⟨rfl,fun _ _ => rfl⟩⟩⟩⟩
  | wait => exact ⟨trivial,fun _ _ => ⟨rfl,fun _ _ => ⟨rfl,fun _ _ => ⟨trivial,fun _ _ => rfl⟩⟩⟩⟩

theorem condUser_follows (cond : CondVar) (script : ℕ → CondCall) :
    (condUser cond script).Follows monitors .idle fun _ _ => True := by
  apply Program.Follows.iterate (fun ph _ => ph = .idle) rfl
  rintro ph n rfl
  refine Program.Follows.bind (Program.Follows.note rfl ?_)
  apply Program.Follows.bind
  refine (condCall_follows cond (script n)).noted.mono ?_
  rintro ph x rfl
  refine Program.Follows.bind (Program.Follows.note ?_ rfl)
  cases script n with
  | _ => rfl

variable [DecidableEq ι] {cond : CondVar} {w w' : CondWorld ι} {ph : ι → CondPhase}
  {tr : List (CondEvent ι)} {i : ι}

/-- Threads that notify, were woken, leave a wait or returned from it are there only after a
notification was called. -/
structure Caused (w : CondWorld ι) (ph : ι → CondPhase) (tr : List (CondEvent ι)) : Prop where
  notifying : ∀ i, ph i = .notifying → Notified tr
  leaving : ∀ i, ph i = .leaving → Notified tr
  woken : w.woken ≠ [] → Notified tr
  returned : (∃ e ∈ tr, IsReturn .wait e) → Notified tr

omit [DecidableEq ι] in
theorem Notified.snoc (h : Notified tr) (e : CondEvent ι) : Notified (tr ++ [e]) := by
  obtain ⟨e',he',h⟩ := h
  exact ⟨e',List.mem_append_left _ he',h⟩

omit [DecidableEq ι] in
theorem Caused.of_notified (h : Notified tr) : Caused w ph tr :=
  ⟨fun _ _ => h,fun _ _ => h,fun _ => h,fun _ => h⟩

theorem Caused.step {c : ThreadCall} {r : ThreadAnswer c} (h : Caused w ph tr)
    (hallows : monitors.allows (ph i) c)
    (hserve : (Program.Kernel.noted (serveCond cond)) w i c r = some w')
    (hwake : NotSpurious w tr ⟨i,c,r⟩) :
    Caused w' (Function.update ph i (monitors.next (ph i) c r)) (tr ++ [⟨i,c,r⟩]) := by
  by_cases hnotified : Notified (tr ++ [⟨i,c,r⟩])
  · exact .of_notified hnotified
  have hnone : ¬ Notified tr := fun hn => hnotified (hn.snoc _)
  -- nobody is woken, and the thread neither notifies nor leaves
  have hquiet (hwoken : w'.woken = w.woken) {p : CondPhase} (hp : p ≠ .notifying ∧ p ≠ .leaving)
      (he : c ≠ .inr (.returns .wait)) : Caused w' (Function.update ph i p) (tr ++ [⟨i,c,r⟩]) := by
    refine ⟨fun j hj => ?_,fun j hj => ?_,fun hne => ?_,?_⟩
    · by_cases hji : j = i
      · subst hji
        exact absurd (by simpa using hj) hp.1
      · exact absurd (h.notifying j (by simpa [hji] using hj)) hnone
    · by_cases hji : j = i
      · subst hji
        exact absurd (by simpa using hj) hp.2
      · exact absurd (h.leaving j (by simpa [hji] using hj)) hnone
    · exact absurd (h.woken (hwoken ▸ hne)) hnone
    · rintro ⟨e,hmem,hreturn⟩
      rcases List.mem_append.mp hmem with hmem | hmem
      · exact absurd (h.returned ⟨e,hmem,hreturn⟩) hnone
      · obtain rfl := List.mem_singleton.mp hmem
        exact absurd hreturn he
  have hphase : ph i ≠ .notifying ∧ ph i ≠ .leaving :=
    ⟨fun hp => hnone (h.notifying i hp),fun hp => hnone (h.leaving i hp)⟩
  cases c with
  | inr n =>
    obtain rfl := Option.some.inj hserve
    cases n with
    | begins call =>
      cases call with
      | wait => exact hquiet rfl (by simp [monitors]) (by simp)
      | changed =>
        exact absurd ⟨_,List.mem_append_right _ (List.mem_singleton_self _),Or.inl rfl⟩ hnotified
      | broadcast =>
        exact absurd ⟨_,List.mem_append_right _ (List.mem_singleton_self _),Or.inr rfl⟩ hnotified
    | returns call =>
      cases call with
      | wait => exact absurd hallows hphase.2
      | _ => exact hquiet rfl (by simp [monitors]) (by simp)
  | inl c =>
    cases c with
    | condSignal a => exact absurd hallows hphase.1
    | condBroadcast a => exact absurd hallows hphase.1
    | condWake a m =>
      rcases hwake a m rfl with hmem | hn
      · exact absurd (h.woken (List.ne_nil_of_mem hmem)) hnone
      · exact absurd hn hnone
    | mutexLock m =>
      refine hquiet ?_ hphase (by simp)
      cases r with
      | error e => rw [← Option.some.inj hserve]
      | ok u =>
        simp only [Program.Kernel.noted,serveCond] at hserve
        split at hserve
        · rw [← Option.some.inj hserve]
        · exact absurd hserve (by simp)
    | mutexUnlock m =>
      refine hquiet ?_ hphase (by simp)
      cases r <;> rw [← Option.some.inj hserve]
    | store addr val =>
      refine hquiet ?_ hphase (by simp)
      rw [← Option.some.inj hserve]
      split <;> rfl
    | condBlock a m =>
      refine hquiet ?_ (by simp [monitors]) (by simp)
      rw [← Option.some.inj hserve]
    | _ =>
      refine hquiet ?_ hphase (by simp)
      rw [← Option.some.inj hserve]

/-- What the calls so far say about a thread is where it is. -/
structure Traced (ph : ι → CondPhase) (tr : List (CondEvent ι)) : Prop where
  blocked : ∀ i, isBlocked tr i = true ↔ ph i = .blocked
  signalling : ∀ i, isSignalling tr i = true ↔ ph i = .signalled

theorem Traced.step {c : ThreadCall} {r : ThreadAnswer c} (h : Traced ph tr)
    (hallows : monitors.allows (ph i) c) :
    Traced (Function.update ph i (monitors.next (ph i) c r)) (tr ++ [⟨i,c,r⟩]) := by
  constructor
  all_goals
    intro j
    by_cases hj : i = j
    · subst hj
      have hblocked := h.blocked i
      have hsignalling := h.signalling i
      simp only [isBlocked,isSignalling] at hblocked hsignalling
      simp only [isBlocked,isSignalling,List.foldl_append,List.foldl_cons,List.foldl_nil,if_true,
        Function.update_self]
      cases c with
      | inl c => cases c <;> simp_all [monitors]
      | inr n => cases n with
        | begins call => cases call <;> simp_all [monitors]
        | returns call => cases call <;> simp_all [monitors]
    · have hblocked := h.blocked j
      have hsignalling := h.signalling j
      simp only [isBlocked,isSignalling] at hblocked hsignalling
      simp [isBlocked,isSignalling,hj,Ne.symm hj,hblocked,hsignalling]

/-- The threads in `pthread_cond_wait` are `waiting`, and there is one while a thread that signalled
has not returned. -/
structure Watched (waiting : List ι) (ph : ι → CondPhase) : Prop where
  nodup : waiting.Nodup
  mem : ∀ i, i ∈ waiting ↔ ph i = .blocked
  signalled : ∀ i, ph i = .signalled → waiting ≠ []

omit [DecidableEq ι] in
theorem Watched.perm {waiting waiting' : List ι} (h : Watched waiting ph)
    (hperm : waiting'.Perm waiting) :
    Watched waiting' ph where
  nodup := hperm.nodup_iff.mpr h.nodup
  mem i := hperm.mem_iff.trans (h.mem i)
  signalled i hi hnil := h.signalled i hi (List.nil_perm.mp (hnil ▸ hperm))

theorem Watched.stay {waiting : List ι} {p : CondPhase} (h : Watched waiting ph) (hi : ph i ≠ .blocked)
    (hp : p ≠ .blocked) (hsignalled : p = .signalled → waiting ≠ []) :
    Watched waiting (Function.update ph i p) := by
  refine ⟨h.nodup,fun j => ?_,fun j hj => ?_⟩
  · by_cases hji : j = i
    · subst hji
      simp [h.mem j,hi,hp]
    · simp [h.mem j,hji]
  · by_cases hji : j = i
    · subst hji
      exact hsignalled (by simpa using hj)
    · exact h.signalled j (by simpa [hji] using hj)

theorem Watched.block {waiting : List ι} (h : Watched waiting ph) (hi : ph i ≠ .blocked) :
    Watched (i :: waiting) (Function.update ph i .blocked) := by
  refine ⟨List.nodup_cons.mpr ⟨fun hmem => hi ((h.mem i).mp hmem),h.nodup⟩,fun j => ?_,
    fun _ _ => by simp⟩
  by_cases hji : j = i
  · simp [hji]
  · simp [hji,h.mem j]

/-- A thread goes on: another one is left, or no thread has signalled. -/
theorem Watched.wake {waiting : List ι} (h : Watched waiting ph)
    (hleft : (∃ j ∈ waiting, j ≠ i) ∨ ∀ j, ph j ≠ .signalled) :
    Watched (waiting.erase i) (Function.update ph i .leaving) := by
  refine ⟨h.nodup.erase i,fun j => ?_,fun j hj => ?_⟩
  · rw [h.nodup.mem_erase_iff]
    by_cases hji : j = i
    · simp [hji]
    · simp [hji,h.mem j]
  · have hsignalled : ph j = .signalled := by
      by_cases hji : j = i
      · exact absurd hj (by simp [hji])
      · simpa [hji] using hj
    rcases hleft with ⟨k,hk,hki⟩ | hnone
    · exact List.ne_nil_of_mem ((h.nodup.mem_erase_iff).mpr ⟨hki,hk⟩)
    · exact absurd hsignalled (hnone j)

theorem Watched.step {c : ThreadCall} {r : ThreadAnswer c} (h : Watched (w.blocked ++ w.woken) ph)
    (htraced : Traced ph tr) (hallows : monitors.allows (ph i) c)
    (hserve : (Program.Kernel.noted (serveCond cond)) w i c r = some w')
    (hattended : Attended w tr ⟨i,c,r⟩) :
    Watched (w'.blocked ++ w'.woken) (Function.update ph i (monitors.next (ph i) c r)) := by
  obtain ⟨hsignal,hwake⟩ := hattended
  -- the threads in `pthread_cond_wait` are the same, and so is where this thread is
  have hkept (hblocked : w'.blocked = w.blocked) (hwoken : w'.woken = w.woken)
      (hnext : monitors.next (ph i) c r = ph i) :
      Watched (w'.blocked ++ w'.woken) (Function.update ph i (monitors.next (ph i) c r)) := by
    rw [hnext,Function.update_eq_self,hblocked,hwoken]
    exact h
  cases c with
  | inr n =>
    obtain rfl := Option.some.inj hserve
    cases n with
    | begins call =>
      have hi : ph i = .idle := hallows
      cases call <;> exact h.stay (by simp [hi]) (by simp [monitors]) (by simp [monitors])
    | returns call =>
      have hi : ph i ≠ .blocked := by
        cases call <;> simp only [monitors] at hallows <;> simp [hallows]
      exact h.stay hi (by simp [monitors]) (by simp [monitors])
  | inl c =>
    cases c with
    | condSignal a =>
      have hi : ph i = .notifying := hallows
      have hne := hsignal a (Or.inl rfl)
      simp only [Program.Kernel.noted,serveCond] at hserve
      split at hserve
      · next j hj =>
        obtain rfl := Option.some.inj hserve
        have hperm : (w.blocked.eraseIdx r ++ j :: w.woken).Perm (w.blocked ++ w.woken) := by
          obtain ⟨hlt,rfl⟩ := List.getElem?_eq_some_iff.mp hj
          exact List.perm_middle.trans ((List.getElem_cons_eraseIdx_perm hlt).append_right _)
        refine (h.stay (by simp [hi]) (by simp [monitors]) fun _ => ?_).perm hperm
        simp [hne]
      · exact absurd hserve (by simp [hne])
    | condBroadcast a =>
      have hi : ph i = .notifying := hallows
      have hne := hsignal a (Or.inr rfl)
      obtain rfl := Option.some.inj hserve
      refine h.stay (by simp [hi]) (by simp [monitors]) fun _ => ?_
      simp [hne]
    | condBlock a m =>
      have hi : ph i = .entering := hallows
      obtain rfl := Option.some.inj hserve
      refine (h.block (by simp [hi])).perm ?_
      simp only [List.append_assoc,List.singleton_append]
      exact List.perm_middle
    | condWake a m =>
      simp only [Program.Kernel.noted,serveCond] at hserve
      split at hserve
      · obtain rfl := Option.some.inj hserve
        have herase : w.blocked.erase i ++ w.woken.erase i = (w.blocked ++ w.woken).erase i := by
          rw [List.erase_append]
          split
          · next hmem =>
            rw [List.erase_of_not_mem (fun hw => (List.nodup_append.mp h.nodup).2.2 i hmem i hw rfl)]
          · next hmem => rw [List.erase_of_not_mem hmem]
        rw [herase]
        refine h.wake ((hwake a m rfl).imp_right fun hnone j hj => ?_)
        exact absurd ((htraced.signalling j).mpr hj) (by simp [hnone j])
      · exact absurd hserve (by simp)
    | mutexLock m =>
      cases r with
      | error e =>
        obtain rfl := Option.some.inj hserve
        exact hkept rfl rfl rfl
      | ok u =>
        simp only [Program.Kernel.noted,serveCond] at hserve
        split at hserve
        · obtain rfl := Option.some.inj hserve
          exact hkept rfl rfl rfl
        · exact absurd hserve (by simp)
    | mutexUnlock m =>
      cases r <;> (obtain rfl := Option.some.inj hserve; exact hkept rfl rfl rfl)
    | store addr val =>
      obtain rfl := Option.some.inj hserve
      refine hkept ?_ ?_ rfl <;> (split <;> rfl)
    | _ =>
      obtain rfl := Option.some.inj hserve
      exact hkept rfl rfl rfl

theorem Unanswered.of_snoc {e : CondEvent ι} (h : Unanswered (tr ++ [e])) :
    Unanswered tr ∨ IsNotified e ∧ ∀ j, isBlocked tr j = false := by
  obtain ⟨before,e',after,htr,hnotified,hnone,hafter⟩ := h
  rcases List.eq_nil_or_concat after with rfl | ⟨after,d,rfl⟩
  · obtain ⟨rfl,he⟩ := List.append_inj' htr rfl
    obtain rfl := List.head_eq_of_cons_eq he
    exact Or.inr ⟨hnotified,hnone⟩
  · rw [List.concat_eq_append,← List.cons_append,← List.append_assoc] at htr
    obtain ⟨rfl,_⟩ := List.append_inj' htr rfl
    exact Or.inl ⟨before,e',after,rfl,hnotified,hnone,fun x hx => hafter x (by simp [hx])⟩

theorem not_unanswered_snoc {waiting : List ι} {e : CondEvent ι} (hwatched : Watched waiting ph)
    (htraced : Traced ph tr) (hallows : monitors.allows (ph e.pid) e.call) (h : ¬ Unanswered tr) :
    ¬ Unanswered (tr ++ [e]) := by
  intro hunanswered
  rcases hunanswered.of_snoc with hunanswered | ⟨hnotified,hnone⟩
  · exact h hunanswered
  have hsignalled : ph e.pid = .signalled := by
    rcases hnotified with hcall | hcall
    all_goals
      simp only [IsReturn] at hcall
      rw [hcall] at hallows
      exact hallows
  obtain ⟨j,hj⟩ := List.exists_mem_of_ne_nil _ (hwatched.signalled _ hsignalled)
  exact absurd ((htraced.blocked j).mpr ((hwatched.mem j).mp hj)) (by simp [hnone j])

/-- What holds in every run in which notifications are attended. -/
structure Answering (w : CondWorld ι) (ph : ι → CondPhase) (tr : List (CondEvent ι)) : Prop where
  traced : Traced ph tr
  watched : Watched (w.blocked ++ w.woken) ph
  answered : ¬ Unanswered tr
  caused : Caused w ph tr

abbrev condPhases (tr : List (CondEvent ι)) : ι → CondPhase :=
  Program.after (fun _ => monitors) (fun _ => CondPhase.idle) tr

theorem unanswered_nil : ¬ Unanswered ([] : List (CondEvent ι)) := by
  rintro ⟨before,e,after,h,_⟩
  exact absurd h (by simp)

theorem run_answering {scripts : ι → ℕ → CondCall}
    {c : Program.Config ι (CondWorld ι) ThreadCall ThreadAnswer}
    (hrun : Program.Run (Program.Kernel.noted (serveCond cond))
      (fun w tr e => Attended w tr e ∧ NotSpurious w tr e) (condUsers cond scripts) tr c) :
    Answering c.world (condPhases tr) tr := by
  refine (hrun.invariant (P := fun _ => monitors) (a := fun _ => CondPhase.idle)
    (I := fun w tr => Answering w (condPhases tr) tr) ?_
    (fun i => condUser_follows cond (scripts i)) ?_).1
  · exact ⟨⟨fun _ => by simp [isBlocked],fun _ => by simp [isSignalling]⟩,
      ⟨List.nodup_nil,fun _ => by simp [condUsers],fun _ h => absurd h (by simp)⟩,unanswered_nil,
      ⟨fun _ h => absurd h (by simp),fun _ h => absurd h (by simp),fun h => absurd rfl h,fun h =>
        absurd h (by simp)⟩⟩
  · rintro w tr i c r w' h hallows hserve ⟨hattended,hwake⟩
    refine ⟨trivial,?_⟩
    simp only [condPhases,Program.after_snoc]
    exact ⟨h.traced.step hallows,h.watched.step h.traced hallows hserve hattended,
      not_unanswered_snoc h.watched h.traced hallows h.answered,h.caused.step hallows hserve hwake⟩

/-- A wait that returns did block. -/
theorem wait_blocks {scripts : ι → ℕ → CondCall}
    {c : Program.Config ι (CondWorld ι) ThreadCall ThreadAnswer} {before mid rest : List (CondEvent ι)}
    (hrun : Program.Run (Program.Kernel.noted (serveCond cond)) Program.anyCall
      (condUsers cond scripts) tr c)
    (htr : tr = before ++ ⟨i,.inr (.begins .wait),()⟩ ::
      (mid ++ ⟨i,.inr (.returns .wait),()⟩ :: rest)) :
    ∃ e ∈ mid, e.pid = i ∧ ∃ cond mux, e.call = .inl (.condBlock cond mux) := by
  have hallowed (pre post : List (CondEvent ι)) (e : CondEvent ι) (h : tr = pre ++ e :: post) :
      monitors.allows (condPhases pre e.pid) e.call :=
    hrun.allowed (fun j => condUser_follows cond (scripts j)) (fun _ _ _ _ => trivial) h
  by_contra hnone
  -- until the thread blocks, it stays where a wait begins
  have hentering (p q : List (CondEvent ι)) (hmid : mid = p ++ q) :
      condPhases (before ++ ⟨i,.inr (.begins .wait),()⟩ :: p) i = .entering := by
    induction p using List.reverseRecOn generalizing q with
    | nil => simp [condPhases,monitors]
    | append_singleton p e ih =>
      have hp := ih (e :: q) (by simp [hmid])
      have hcall := hallowed (before ++ ⟨i,.inr (.begins .wait),()⟩ :: p)
        (q ++ ⟨i,.inr (.returns .wait),()⟩ :: rest) e (by simp [htr,hmid])
      rw [← List.cons_append,← List.append_assoc]
      simp only [condPhases,Program.after_snoc] at hp hcall ⊢
      by_cases hi : e.pid = i
      · subst hi
        rw [hp] at hcall
        rw [Function.update_self,hp]
        obtain ⟨i,c,r⟩ := e
        cases c with
        | inr n => cases n with
          | begins call => exact absurd hcall (by simp [monitors])
          | returns call => cases call <;> exact absurd hcall (by simp [monitors])
        | inl c => cases c with
          | condBlock a m => exact absurd ⟨_,by simp [hmid],rfl,a,m,rfl⟩ hnone
          | condSignal a => exact absurd hcall (by simp [monitors])
          | condBroadcast a => exact absurd hcall (by simp [monitors])
          | condWake a m => exact absurd hcall (by simp [monitors])
          | _ => rfl
      · rw [Function.update_of_ne (Ne.symm hi)]
        exact hp
  have hleaving := hallowed (before ++ ⟨i,.inr (.begins .wait),()⟩ :: mid) rest
    ⟨i,.inr (.returns .wait),()⟩ (by simp [htr])
  exact absurd (hleaving.symm.trans (hentering mid [] (by simp))) (by decide)

/-- In every run in which a notification signals only while a thread is blocked, and not all of them
go on before it returns: no thread is blocked in a wait that began after a notification which is
unanswered; and no wait returns before a notification was called, if no thread goes on by itself
before. A wait that does begin after such a notification is blocked before it returns, unless
another wait returns. -/
theorem run_notifications {scripts : ι → ℕ → CondCall}
    {c : Program.Config ι (CondWorld ι) ThreadCall ThreadAnswer} :
    (Program.Run (Program.Kernel.noted (serveCond cond))
      (fun w tr e => Attended w tr e ∧ NotSpurious w tr e) (condUsers cond scripts) tr c →
        (∀ i, ¬ Forgotten tr i) ∧ ((∃ e ∈ tr, IsReturn .wait e) → Notified tr)) ∧
    (Program.Run (Program.Kernel.noted (serveCond cond)) Program.anyCall
      (condUsers cond scripts) tr c →
      ∀ before i mid rest,
        tr = before ++ ⟨i,.inr (.begins .wait),()⟩ :: (mid ++ ⟨i,.inr (.returns .wait),()⟩ :: rest) →
        Unanswered before → (∀ e ∈ mid, ¬ IsReturn .wait e) →
        ∃ p, p <+: mid ∧ Forgotten (before ++ ⟨i,.inr (.begins .wait),()⟩ :: p) i) := by
  constructor
  · intro hrun
    refine ⟨?_,(run_answering hrun).caused.returned⟩
    rintro i ⟨_,before,e,after,htr,_,_,hunanswered,_⟩
    obtain ⟨c',_,hbefore,_⟩ := hrun.before htr
    exact (run_answering hbefore).answered hunanswered
  · intro hrun before i mid rest htr hunanswered hnone
    obtain ⟨e,hmem,hi,a,m,hcall⟩ := wait_blocks hrun htr
    obtain ⟨p,q,rfl⟩ := List.append_of_mem hmem
    refine ⟨p ++ [e],⟨q,by simp⟩,?_,before,_,p ++ [e],rfl,rfl,rfl,hunanswered,fun e' he' =>
      hnone e' ?_⟩
    · rw [← List.cons_append,← List.append_assoc]
      simp [isBlocked,hi,hcall]
    · simp only [List.mem_append,List.mem_cons,List.not_mem_nil,or_false] at he' ⊢
      exact he'.imp_right Or.inl

def sampleCond : CondVar := ⟨1,2,3,4,5⟩

def changedSchedule : List (CondEvent Bool) :=
  [⟨true,.inr (.begins .changed),()⟩,⟨true,.inl (.mutexLock 2),.ok ()⟩,⟨true,.inl (.store 5 1),()⟩,
    ⟨true,.inl (.mutexUnlock 2),.ok ()⟩,⟨true,.inl (.condSignal 4),(0 : ℕ)⟩,
      ⟨true,.inr (.returns .changed),()⟩]

def blockedSchedule : List (CondEvent Bool) :=
  [⟨false,.inr (.begins .wait),()⟩,⟨false,.inl (.mutexLock 2),.ok ()⟩,⟨false,.inl (.condBlock 4 2),()⟩]

def returnedSchedule : List (CondEvent Bool) :=
  [⟨false,.inl (.condWake 4 2),()⟩,⟨false,.inl (.mutexUnlock 2),.ok ()⟩,
    ⟨false,.inr (.returns .wait),()⟩]

def sampleScripts (i : Bool) (_ : ℕ) : CondCall := if i then .changed else .wait

theorem changedSchedule_unanswered : Unanswered changedSchedule :=
  ⟨changedSchedule.dropLast,_,[],rfl,Or.inl rfl,by decide,fun _ h => absurd h List.not_mem_nil⟩

/-- A thread waits and another one notifies it; in the other order the first notification is
lost. -/
theorem run_notifications_sample :
    (Notified (blockedSchedule ++ changedSchedule ++ returnedSchedule) ∧
      ∀ i, ¬ Forgotten (blockedSchedule ++ changedSchedule ++ returnedSchedule) i) ∧
    ∃ p, Forgotten (changedSchedule ++ ⟨false,.inr (.begins .wait),()⟩ :: p) false := by
  constructor
  · obtain ⟨c,hc⟩ := Option.isSome_iff_exists.mp (show (Program.exec
      (Program.Kernel.noted (serveCond sampleCond)) (condUsers sampleCond sampleScripts)
      (blockedSchedule ++ changedSchedule ++ returnedSchedule)).isSome by decide)
    have hrun : Program.Run (Program.Kernel.noted (serveCond sampleCond))
        (fun w tr e => Attended w tr e ∧ NotSpurious w tr e) (condUsers sampleCond sampleScripts)
        (blockedSchedule ++ changedSchedule ++ returnedSchedule) c := by
      have hquiet {w : CondWorld Bool} {tr : List (CondEvent Bool)} {e : CondEvent Bool}
          (hsignal : ∀ cond, e.call ≠ .inl (.condSignal cond))
          (hbroadcast : ∀ cond, e.call ≠ .inl (.condBroadcast cond))
          (hwake : ∀ cond mux, e.call ≠ .inl (.condWake cond mux)) :
          Attended w tr e ∧ NotSpurious w tr e :=
        ⟨⟨fun cond h => h.elim (fun h => absurd h (hsignal cond)) fun h => absurd h (hbroadcast cond),
          fun cond mux h => absurd h (hwake cond mux)⟩,fun cond mux h => absurd h (hwake cond mux)⟩
      have hsignal {tr : List (CondEvent Bool)} : Attended ⟨none,1,[false],[]⟩ tr
          ⟨true,.inl (.condSignal 4),(0 : ℕ)⟩ ∧ NotSpurious ⟨none,1,[false],[]⟩ tr
          ⟨true,.inl (.condSignal 4),(0 : ℕ)⟩ :=
        ⟨⟨fun _ _ => by simp,nofun⟩,nofun⟩
      have hwake : Attended ⟨none,1,[],[false]⟩ (blockedSchedule ++ changedSchedule)
          ⟨false,.inl (.condWake 4 2),()⟩ ∧
            NotSpurious ⟨none,1,[],[false]⟩ (blockedSchedule ++ changedSchedule)
          ⟨false,.inl (.condWake 4 2),()⟩ :=
        ⟨⟨nofun,fun _ _ _ => Or.inr (by decide)⟩,fun _ _ _ => Or.inl (by simp)⟩
      exact Program.Run.refl.obey
        ⟨hquiet nofun nofun nofun,hquiet nofun nofun nofun,hquiet nofun nofun nofun,
        hquiet nofun nofun nofun,hquiet nofun nofun nofun,hquiet nofun nofun nofun,
          hquiet nofun nofun nofun,
        hsignal,hquiet nofun nofun nofun,hwake,hquiet nofun nofun nofun,hquiet nofun nofun nofun,
          trivial⟩ hc
    obtain ⟨hforgotten,hnotified⟩ := run_notifications.1 hrun
    exact ⟨hnotified ⟨⟨false,.inr (.returns .wait),()⟩,by simp [returnedSchedule],rfl⟩,hforgotten⟩
  · obtain ⟨c,hc⟩ := Option.isSome_iff_exists.mp (show (Program.exec
      (Program.Kernel.noted (serveCond sampleCond)) (condUsers sampleCond sampleScripts)
      (changedSchedule ++ blockedSchedule ++ changedSchedule ++ returnedSchedule)).isSome by decide)
    obtain ⟨p,_,hforgotten⟩ :=
      run_notifications.2 (Program.Run.refl.exec (Program.complies_anyCall _) hc)
      changedSchedule false (blockedSchedule.tail ++ changedSchedule ++ returnedSchedule.dropLast)
        [] (by rfl)
      changedSchedule_unanswered (by simp [blockedSchedule,changedSchedule,returnedSchedule,IsReturn])
    exact ⟨p,hforgotten⟩

/-- Not in every run: a wait that begins after a notification is blocked, and a wait that nobody
notified returns. -/
theorem run_notifications_fails :
    (¬ ∀ (cond : CondVar) (scripts : Bool → ℕ → CondCall) (tr : List (CondEvent Bool))
      (c : Program.Config Bool (CondWorld Bool) ThreadCall ThreadAnswer),
      Program.Run (Program.Kernel.noted (serveCond cond)) Program.anyCall (condUsers cond scripts)
        tr c →
      ∀ i, ¬ Forgotten tr i) ∧
    ¬ ∀ (cond : CondVar) (scripts : Bool → ℕ → CondCall) (tr : List (CondEvent Bool))
      (c : Program.Config Bool (CondWorld Bool) ThreadCall ThreadAnswer),
      Program.Run (Program.Kernel.noted (serveCond cond)) Program.anyCall (condUsers cond scripts)
        tr c →
      (∃ e ∈ tr, IsReturn .wait e) → Notified tr := by
  constructor
  · intro h
    obtain ⟨c,hc⟩ := Option.isSome_iff_exists.mp (show (Program.exec
      (Program.Kernel.noted (serveCond sampleCond)) (condUsers sampleCond sampleScripts)
      (changedSchedule ++ blockedSchedule)).isSome by decide)
    apply h _ _ _ c (Program.Run.refl.exec (Program.complies_anyCall _) hc) false
    refine ⟨by decide,changedSchedule,_,_,rfl,rfl,rfl,changedSchedule_unanswered,fun e he => ?_⟩
    simp only [List.mem_cons,List.not_mem_nil,or_false] at he
    rcases he with rfl | rfl <;> exact nofun
  · intro h
    obtain ⟨c,hc⟩ := Option.isSome_iff_exists.mp (show (Program.exec
      (Program.Kernel.noted (serveCond sampleCond)) (condUsers sampleCond sampleScripts)
      (blockedSchedule ++ returnedSchedule)).isSome by decide)
    obtain ⟨e,he,hcall⟩ := h _ _ _ c (Program.Run.refl.exec (Program.complies_anyCall _) hc)
      ⟨⟨false,.inr (.returns .wait),()⟩,by simp [returnedSchedule],rfl⟩
    simp only [blockedSchedule,returnedSchedule,List.cons_append,List.nil_append,List.mem_cons,
      List.not_mem_nil,or_false] at he
    rcases he with rfl | rfl | rfl | rfl | rfl | rfl <;> rcases hcall with hcall |
      hcall <;> cases hcall

end CondVar
end LixRtos
