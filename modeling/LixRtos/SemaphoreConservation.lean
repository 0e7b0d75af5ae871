import LixRtos.SemaphoreRace
import Mathlib.Data.Finset.Card

/-! Processes that lock and unlock one semaphore that is set up. Each call does one successful
`semop` or none, as its return value says, and the value of the semaphore and the number of
processes that hold it are 1 together. -/
namespace LixRtos
namespace Sema

inductive SemaCall
  | lock
  | timelock (ms : ℕ)
  | unlock

def SemaCall.run (sema : Option Sema) : SemaCall → Sys ℤ
  | .lock => semaLock sema
  | .timelock ms => semaTimelock sema ms
  | .unlock => semaUnlock sema

/-- A process makes the calls of its script; it holds the semaphore from a lock that returns 0 to an
unlock that returns 0, and does not unlock at other times. -/
def semaUser (sema : Sema) (script : ℕ → SemaCall) : Sys Unit :=
  Program.iterate (fun s : ℕ × Bool =>
    match script s.1 with
    | .unlock =>
      if s.2 then do
        let r ← semaUnlock (some sema)
        pure (.inl (s.1+1,decide (r ≠ 0)))
      else pure (.inl (s.1+1,s.2))
    | c => do
      let r ← c.run (some sema)
      pure (.inl (s.1+1,s.2 || decide (r = 0)))) (0,false)

variable {ι : Type}

/-- The value of the semaphore `id`; a call may fail at any time. -/
def serveSema (id : ℤ) (v : ℤ) (_ : ι) : (c : SysCall) → c.Answer → Option ℤ
  | .semop id' op _, .ok _ => if id' = id then (if 0 ≤ v+op then some (v+op) else none) else some v
  | _, _ => some v

def semaUsers (semas : ι → Sema) (scripts : ι → ℕ → SemaCall) :
    Program.Config ι ℤ SysCall SysCall.Answer where
  world := 1
  procs i := semaUser (semas i) (scripts i)

def semopCount (tr : List (Program.Exchange SysCall SysCall.Answer)) : ℕ :=
  tr.countP fun
    | ⟨.semop _ _ _,.ok _⟩ => true
    | _ => false

def counting : Program.Protocol SysCall SysCall.Answer ℕ where
  allows _ _ := True
  answers _ _ _ := True
  next
    | n, .semop _ _ _, .ok _ => n+1
    | n, _, _ => n

theorem counting_final (n : ℕ) (tr : List (Program.Exchange SysCall SysCall.Answer)) :
    counting.final n tr = n + semopCount tr := by
  induction tr generalizing n with
  | nil => rfl
  | cons e tr ih =>
    obtain ⟨c,r⟩ := e
    rw [Program.Protocol.final,ih]
    cases c with
    | semop id op nowait =>
      cases r with
      | ok u => simp [counting,semopCount]; omega
      | error e => simp [counting,semopCount]
    | _ => simp [counting,semopCount]

theorem counting_accepts (n : ℕ) (tr : List (Program.Exchange SysCall SysCall.Answer)) :
    counting.Accepts n tr := by
  induction tr generalizing n with
  | nil => trivial
  | cons e tr ih => exact ⟨trivial,ih _⟩

theorem SemaCall.run_counting (call : SemaCall) (sema : Option Sema) :
    (call.run sema).Follows counting 0 fun n r => n = if r = 0 then 1 else 0 := by
  have htime : Timeless counting 0 := ⟨⟨trivial,fun _ => rfl⟩,fun _ => ⟨trivial,fun _ => rfl⟩⟩
  cases sema with
  | none => cases call <;> exact rfl
  | some sema =>
    cases call with
    | lock => exact semopLoop_follows (P := counting) sema (-1) 0 1 trivial rfl (fun _ => rfl) rfl rfl
    | timelock ms =>
      exact semaTimelock_follows (P := counting) sema ms 0 1 htime trivial rfl (fun _ => rfl) rfl rfl
    | unlock => exact semopLoop_follows (P := counting) sema 1 0 1 trivial rfl (fun _ => rfl) rfl rfl

/-- A call that returns 0 did one successful `semop`, any other call none. -/
theorem SemaCall.run_semopCount (call : SemaCall) (sema : Option Sema)
    {tr : List (Program.Exchange SysCall SysCall.Answer)} {r : ℤ} (h : (call.run sema).Yields tr r) :
    semopCount tr = if r = 0 then 1 else 0 := by
  have hcount := (call.run_counting sema).yields h (counting_accepts 0 tr)
  rwa [counting_final,Nat.zero_add] at hcount

/-- The calls of a process that works on the semaphore `id`. The state is whether it holds it. -/
def locking (id : ℤ) : Program.Protocol SysCall SysCall.Answer Bool where
  allows
    | held, .semop i op _ => i = id ∧ (op = -1 ∨ op = 1 ∧ held)
    | _, _ => True
  answers _ _ _ := True
  next
    | _, .semop _ op _, .ok _ => op = -1
    | held, _, _ => held

theorem locking_timeless (id : ℤ) (held : Bool) : Timeless (locking id) held :=
  ⟨⟨trivial,fun _ => rfl⟩,fun _ => ⟨trivial,fun _ => rfl⟩⟩

theorem semaUser_follows (sema : Sema) (script : ℕ → SemaCall) :
    (semaUser sema script).Follows (locking sema.id) false fun _ _ => True := by
  apply Program.Follows.iterate (fun held s => s.2 = held) rfl
  rintro held ⟨n,_⟩ rfl
  dsimp only
  split
  · split
    · next hheld =>
      rw [hheld]
      exact Program.Follows.bind (semopLoop_follows (P := locking sema.id) sema 1 true false
        ⟨rfl,Or.inr ⟨rfl,rfl⟩⟩ rfl (fun _ => rfl) rfl rfl)
    · rfl
  · next hunlock =>
    apply Program.Follows.bind
    cases hcall : script n with
    | lock =>
      exact semopLoop_follows (P := locking sema.id) sema (-1) _ true ⟨rfl,Or.inl rfl⟩ rfl
        (fun _ => rfl) (Bool.or_true _) (Bool.or_false _)
    | timelock ms =>
      exact semaTimelock_follows (P := locking sema.id) sema ms _ true (locking_timeless _ _)
        ⟨rfl,Or.inl rfl⟩ rfl (fun _ => rfl) (Bool.or_true _) (Bool.or_false _)
    | unlock => exact absurd hcall hunlock

/-- The value of the semaphore and the number of processes that hold it are 1 together. -/
def Conserved (v : ℤ) (held : ι → Bool) : Prop :=
  ∃ holders : Finset ι, (∀ i, i ∈ holders ↔ held i) ∧ v + holders.card = 1

variable [DecidableEq ι] {v : ℤ} {held : ι → Bool} {i : ι} {tr : Trace ι}

theorem Conserved.lock (h : Conserved v held) (hv : 0 ≤ v + -1) :
    Conserved (v + -1) (Function.update held i true) := by
  obtain ⟨holders,hmem,hcount⟩ := h
  have hnone : holders = ∅ := Finset.card_eq_zero.mp (by omega)
  subst hnone
  rw [Finset.card_empty] at hcount
  refine ⟨{i},fun j => ?_,?_⟩
  · by_cases hj : j = i
    · simp [hj]
    · have hout := (hmem j).not.mp (Finset.notMem_empty j)
      simpa [hj] using hout
  · rw [Finset.card_singleton]
    omega

theorem Conserved.unlock (h : Conserved v held) (hi : held i) :
    Conserved (v + 1) (Function.update held i false) := by
  obtain ⟨holders,hmem,hcount⟩ := h
  have hin := (hmem i).mpr hi
  have hcard := Finset.card_erase_add_one hin
  refine ⟨holders.erase i,fun j => ?_,by omega⟩
  by_cases hj : j = i
  · simp [hj]
  · simpa [hj] using hmem j

theorem inside_locking {id : ℤ} {c : SysCall} {r : c.Answer}
    (hallows : (locking id).allows (inside tr i) c) :
    inside (tr ++ [⟨i,c,r⟩]) = Function.update (inside tr) i
      ((locking id).next (inside tr i) c r) := by
  funext j
  rw [inside_snoc]
  by_cases hj : j = i
  · subst hj
    rw [if_pos rfl,Function.update_self]
    cases c with
    | semop id op nowait =>
      cases r with
      | error e => rfl
      | ok u => obtain ⟨_,rfl | ⟨rfl,_⟩⟩ := hallows <;> rfl
    | _ => rfl
  · rw [if_neg (Ne.symm hj),Function.update_of_ne hj]

theorem Conserved.step {id v' : ℤ} (h : Conserved v held) {c : SysCall} {r : c.Answer}
    (hallows : (locking id).allows (held i) c) (hserve : serveSema id v i c r = some v') :
    Conserved v' (Function.update held i ((locking id).next (held i) c r)) := by
  have hidle (hv : v = v') (hnext : (locking id).next (held i) c r = held i) :
      Conserved v' (Function.update held i ((locking id).next (held i) c r)) := by
    rw [hnext,Function.update_eq_self,← hv]
    exact h
  cases c with
  | semop id' op nowait =>
    cases r with
    | error e => exact hidle (Option.some.inj hserve) rfl
    | ok u =>
      obtain ⟨rfl,hop⟩ := hallows
      simp only [serveSema,if_true] at hserve
      split at hserve
      · next hv =>
        obtain rfl := Option.some.inj hserve
        rcases hop with rfl | ⟨rfl,hheld⟩
        · exact h.lock hv
        · exact h.unlock hheld
      · exact absurd hserve (by simp)
  | _ => exact hidle (Option.some.inj hserve) rfl

theorem run_holders {semas : ι → Sema} {id : ℤ} (hid : ∀ i, (semas i).id = id)
    {scripts : ι → ℕ → SemaCall} {c : Program.Config ι ℤ SysCall SysCall.Answer}
    (hrun : Program.Run (serveSema id) Program.anyCall (semaUsers semas scripts) tr c) :
    Conserved c.world (inside tr) := by
  have hfollows (i : ι) : ((semaUsers semas scripts).procs i).Follows (locking id) false
      fun _ _ => True := hid i ▸ semaUser_follows (semas i) (scripts i)
  refine (Program.Run.invariant (P := fun _ => locking id) (a := fun _ => false)
    (I := fun v tr => Conserved v (inside tr) ∧
      ∀ i, Program.after (fun _ => locking id) (fun _ => false) tr i = inside tr i)
    hrun ⟨⟨∅,by simp [inside],rfl⟩,fun _ => rfl⟩ hfollows ?_).1.1
  rintro v tr i c r v' ⟨hsum,hheld⟩ hallows hserve -
  rw [hheld] at hallows
  have hinside := inside_locking (r := r) hallows
  refine ⟨trivial,?_,fun j => ?_⟩
  · rw [hinside]
    exact hsum.step hallows hserve
  · rw [Program.after_snoc,hinside]
    by_cases hj : j = i
    · subst hj
      simp [hheld]
    · simpa [hj] using hheld j

/-- In every run the value of the semaphore and the number of processes that hold it are 1 together;
a call, whatever answers it gets, returns 0 after one successful `semop` and something else after
none. -/
theorem run_conserved {semas : ι → Sema} {id : ℤ} (hid : ∀ i, (semas i).id = id)
    {scripts : ι → ℕ → SemaCall} {c : Program.Config ι ℤ SysCall SysCall.Answer}
    (hrun : Program.Run (serveSema id) Program.anyCall (semaUsers semas scripts) tr c) :
    (∃ holders : Finset ι, (∀ i, i ∈ holders ↔ inside tr i) ∧ c.world + holders.card = 1) ∧
    ∀ (call : SemaCall) (sema : Option Sema) (calls : List (Program.Exchange SysCall SysCall.Answer))
      (r : ℤ), (call.run sema).Yields calls r →
      (r = 0 → semopCount calls = 1) ∧ (r ≠ 0 → semopCount calls = 0) := by
  refine ⟨run_holders hid hrun,fun call sema calls r h => ?_⟩
  have hcount := call.run_semopCount sema h
  exact ⟨fun hr => by rw [hcount,if_pos hr],fun hr => by rw [hcount,if_neg hr]⟩

/-- One process locks while the other is interrupted and finds the semaphore taken. -/
def lockedSchedule : Trace Bool :=
  [⟨true,.clockGettime,none⟩,⟨false,.semop 4 (-1) false,.error .EINTR⟩,
    ⟨false,.semop 4 (-1) false,.ok ()⟩,
    ⟨true,.semop 4 (-1) true,.error .EAGAIN⟩,⟨true,.clockGettime,some ⟨0,0⟩⟩,
    ⟨false,.semop 4 1 false,.ok ()⟩]

theorem run_conserved_sample :
    ∃ holders : Finset Bool, (∀ i, i ∈ holders ↔ inside lockedSchedule i) ∧
      1 + (holders.card : ℤ) = 1 := by
  let semas (_ : Bool) : Sema := ⟨4,0,[],0⟩
  let scripts (i : Bool) (n : ℕ) : SemaCall :=
    if i then .timelock 5 else if n = 0 then .lock else .unlock
  obtain ⟨c,hc,hworld⟩ : ∃ c, Program.exec (serveSema 4) (semaUsers semas scripts) lockedSchedule =
    some c ∧
      c.world = 1 := ⟨_,rfl,rfl⟩
  have hrun : Program.Run (serveSema 4) Program.anyCall (semaUsers semas scripts) lockedSchedule c :=
    Program.Run.refl.exec (Program.complies_anyCall _) hc
  have hid (i : Bool) : (semas i).id = 4 := rfl
  have hsum := (run_conserved hid hrun).1
  rwa [hworld] at hsum

end Sema
end LixRtos
