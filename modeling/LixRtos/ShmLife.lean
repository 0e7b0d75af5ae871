import LixRtos.ShmRace
import LixRtos.Registry

/-! The life of a segment: processes that create shared memory objects, attach the segment of one
key file and remove it, as often as they like. The key file stays when the segment goes. -/
namespace LixRtos
namespace Shm

inductive LifeCall
  /-- `shmctl(id, IPC_RMID, NULL)` -/
  | shmctlRmid (id : ℤ)
  /-- What `shm_init` returned to its caller. -/
  | returned (ret : ℤ)
  deriving DecidableEq

abbrev LifeCall.Answer : LifeCall → Type
  | .shmctlRmid _ => Except Errno Unit
  | .returned _ => Unit

abbrev AnyCall := SysCall ⊕ LifeCall

abbrev AnyCall.Answer : AnyCall → Type := Sum.elim SysCall.Answer LifeCall.Answer

abbrev Life := Program AnyCall AnyCall.Answer

def sizeofShm : ℕ := 168

/-- `shm_new`: the object and its address, which is 0 for `NULL`. -/
def shmNew (reg : Registry) : Sys (ℕ × Shm × Registry) := do
  let r ← omalloc reg sizeofShm
  pure (r.1,⟨true,0,0,0,0,[]⟩,r.2)

def shmctlRmid (id : ℤ) : Life (Except Errno Unit) := .call (.inr (.shmctlRmid id)) .ret

def returned (ret : ℤ) : Life Unit := .call (.inr (.returned ret)) .ret

/-- `shm` lies at this address, which is 0 for `NULL`. -/
def shmDestory (shm : Shm) (addr : ℕ) (reg : Registry) : Life (ℤ × Registry) :=
  if addr = 0 then pure (-1,reg)
  else do
    match ← shmctlRmid shm.id with
    | .error _ => pure (-1,reg)
    | .ok _ => do
      let r ← (ofree reg addr).extend
      pure (0,r.2)

inductive LifeOp
  | init (size : ℕ)
  | destroy

/-- The object of a process, at address 0 while there is none. -/
structure Holder where
  addr : ℕ
  shm : Shm
  reg : Registry

def Holder.create (u : Holder) : Life Holder :=
  if u.addr = 0 then do
    let r ← (shmNew u.reg).extend
    pure ⟨r.1,r.2.1,r.2.2⟩
  else pure u

def Holder.turn (path : Path) (u : Holder) : LifeOp → Life Holder
  | .init size => do
    let u ← u.create
    let r ← (shmInit (if u.addr = 0 then none else some u.shm) (some path) size).extend
    returned r.1
    pure { u with shm := r.2.getD u.shm }
  | .destroy => do
    let r ← shmDestory u.shm u.addr u.reg
    pure ⟨if r.1 = 0 then 0 else u.addr,u.shm,r.2⟩

/-- A process that initialises and destroys in the order of its script, for ever. -/
def Holder.live (path : Path) (script : ℕ → LifeOp) (u : Holder) : Life Unit :=
  Program.iterate (fun s : ℕ × Holder => do
    let u ← s.2.turn path (script s.1)
    pure (.inl (s.1+1,u))) (0,u)

variable {ι : Type} [DecidableEq ι]

/-- A segment that is removed is no longer found under its key. -/
def serveLife (path : Path) (key : ℤ) (w : ShmWorld ι) (i : ι) :
    (c : AnyCall) → AnyCall.Answer c → Option (ShmWorld ι)
  | .inl c, r => serve path key w i c r
  | .inr (.shmctlRmid id), .ok _ => some { w with seg := w.seg.filter fun s => s.id ≠ id }
  | .inr _, _ => some w

/-- Any number of processes at the start, with neither key file nor segment. -/
def holders (us : ι → Holder) (path : Path) (scripts : ι → ℕ → LifeOp) :
    Program.Config ι (ShmWorld ι) AnyCall AnyCall.Answer where
  world := ⟨false,none,fun _ => none⟩
  procs i := (us i).live path (scripts i)

abbrev LifeEvent (ι : Type) := Program.Event ι AnyCall AnyCall.Answer

/-- How far a call of `shm_init` is. A process that found the key file missing is creating. -/
inductive LifePhase
  | idle
  | missing
  | opened
  | keying (creating : Bool)
  | getting (creating : Bool)
  | attaching (creating : Bool)
  | zeroing
  | ready
  | failed
  deriving DecidableEq

/-- The calls of each phase. `shm_init` returns 0 only behind a successful `shmat`. -/
def lifePhases (path : Path) (key : ℤ) : Program.Protocol AnyCall AnyCall.Answer LifePhase where
  allows
    | .idle, .inl (.malloc _) | .idle, .inl (.free _) | .idle, .inr (.shmctlRmid _) => True
    | .idle, .inl (.access p) => p = path
    | .missing, .inl (.openCreate p) => p = path
    | .opened, .inl (.close _) => True
    | .keying _, .inl (.ftok p _) => p = path
    | .getting creating, .inl (.shmget k _ flag) => k = key ∧ (creating = true ↔ flag &&& ipcCreat ≠ 0)
    | .attaching _, .inl (.shmat _) => True
    | .zeroing, .inl (.zero _ _) => True
    | .ready, .inr (.returned _) => True
    | .idle, .inr (.returned ret) | .failed, .inr (.returned ret) => ret ≠ 0
    | _, _ => False
  answers
    | .keying _, .inl (.ftok _ _), .ok k => k = key
    | _, _, _ => True
  next
    | .idle, .inl (.access _), .ok _ => .keying false
    | .idle, .inl (.access _), .error _ => .missing
    | .missing, .inl (.openCreate _), .ok _ => .opened
    | .opened, .inl (.close _), _ => .keying true
    | .keying creating, .inl (.ftok _ _), .ok _ => .getting creating
    | .getting creating, .inl (.shmget _ _ _), .ok _ => .attaching creating
    | .attaching creating, .inl (.shmat _), .ok _ => if creating then .zeroing else .ready
    | .zeroing, .inl (.zero _ _), _ => .ready
    | .idle, .inl (.malloc _), _ | .idle, .inl (.free _), _ => .idle
    | _, .inr _, _ => .idle
    | _, _, _ => .failed

variable {path : Path} {key : ℤ}

theorem attach_returns {shm : Shm} {creating : Bool} {flag : ℕ} (hpath : shm.keyPath = path)
    (hflag : creating = true ↔ flag &&& ipcCreat ≠ 0) :
    (attach shm flag).Follows (lifePhases path key).restrict (.keying creating) fun ph r =>
      (lifePhases path key).allows ph (.inr (.returned r.1)) := by
  have hfailed (ret : ℤ) (hret : ret ≠ 0) :
      (lifePhases path key).allows .failed (.inr (.returned ret)) := hret
  refine Program.Follows.bind (Program.Follows.perform hpath ?_)
  rintro (e | k) hk
  · exact hfailed (-3) (by decide)
  refine Program.Follows.bind (Program.Follows.perform ⟨hk,hflag⟩ ?_)
  rintro (e | id) _
  · exact hfailed (-4) (by decide)
  refine Program.Follows.bind (Program.Follows.perform trivial ?_)
  rintro (e | base) _
  · exact hfailed (-5) (by decide)
  cases creating with
  | false =>
    have hflag' : ¬ flag &&& ipcCreat ≠ 0 := fun h => absurd (hflag.mpr h) (by decide)
    simp only [if_neg hflag']
    exact trivial
  | true =>
    simp only [if_pos (hflag.mp rfl)]
    exact Program.Follows.bind (Program.Follows.perform trivial fun _ _ => trivial)

theorem shmInit_returns (shm : Option Shm) (path : Path) (size : ℕ) (key : ℤ) :
    (shmInit shm (some path) size).Follows (lifePhases (path.take (keyPathLen-1)) key).restrict .idle
      fun ph r => (lifePhases (path.take (keyPathLen-1)) key).allows ph (.inr (.returned r.1)) := by
  have hidle : (lifePhases (path.take (keyPathLen-1)) key).allows .idle (.inr (.returned (-1))) :=
    (by decide : (-1 : ℤ) ≠ 0)
  cases shm with
  | none => exact hidle
  | some shm =>
    rw [shmInit]
    by_cases hsize : size = 0
    · rw [if_pos hsize]
      exact hidle
    rw [if_neg hsize]
    refine Program.Follows.bind (Program.Follows.perform rfl ?_)
    rintro (e | _) _
    · refine Program.Follows.bind (Program.Follows.perform rfl ?_)
      rintro (e | fd) _
      · exact (by decide : (-2 : ℤ) ≠ 0)
      · refine Program.Follows.bind (Program.Follows.perform trivial ?_)
        exact fun _ _ => attach_returns rfl (by decide)
    · exact attach_returns rfl (by decide)

theorem omalloc_idle (reg : Registry) (size : ℕ) : (omalloc reg size).Follows
    (lifePhases path key).restrict .idle fun ph _ => ph = .idle := by
  rw [omalloc]
  split
  · rfl
  split
  · rfl
  · refine Program.Follows.bind (Program.Follows.perform trivial fun p _ => ?_)
    split <;> rfl

theorem ofree_idle (reg : Registry) (addr : ℕ) : (ofree reg addr).Follows
    (lifePhases path key).restrict .idle fun ph _ => ph = .idle := by
  rw [ofree]
  split
  · rfl
  split
  · rfl
  · exact Program.Follows.bind (Program.Follows.perform trivial fun _ _ => rfl)

theorem Holder.create_idle (u : Holder) :
    u.create.Follows (lifePhases path key) .idle fun ph _ => ph = .idle := by
  rw [create]
  split
  · refine Program.Follows.bind (Program.Follows.extend (Program.Follows.bind ?_))
    refine (omalloc_idle _ _).mono ?_
    rintro _ r rfl
    rfl
  · rfl

theorem Holder.turn_idle (path : Path) (key : ℤ) (u : Holder) (op : LifeOp) :
    (u.turn path op).Follows (lifePhases (path.take (keyPathLen-1)) key) .idle fun ph _ =>
      ph = .idle := by
  cases op with
  | init size =>
    refine Program.Follows.bind (u.create_idle.mono ?_)
    rintro _ u rfl
    refine Program.Follows.bind ((shmInit_returns _ path size key).extend.mono ?_)
    intro ph r hr
    refine ⟨hr,fun _ _ => ?_⟩
    cases ph <;> rfl
  | destroy =>
    rw [turn,shmDestory]
    split
    · rfl
    · refine Program.Follows.bind (Program.Follows.bind ⟨trivial,?_⟩)
      rintro (e | _) _
      · rfl
      · refine Program.Follows.bind ((ofree_idle _ _).extend.mono ?_)
        rintro _ r rfl
        rfl

theorem Holder.live_follows (path : Path) (key : ℤ) (script : ℕ → LifeOp) (u : Holder) :
    (u.live path script).Follows (lifePhases (path.take (keyPathLen-1)) key) .idle fun _ _ =>
      True := by
  apply Program.Follows.iterate (fun ph _ => ph = .idle) rfl
  rintro _ ⟨n,u⟩ rfl
  refine Program.Follows.bind ((u.turn_idle path key (script n)).mono ?_)
  rintro _ u rfl
  rfl

def lifePhasesOf (path : Path) (key : ℤ) (tr : List (LifeEvent ι)) : ι → LifePhase :=
  Program.after (fun _ => lifePhases (path.take (keyPathLen-1)) key) (fun _ => .idle) tr

omit [DecidableEq ι] in
/-- A call of `shmget` with `IPC_CREAT`, whatever it answers. -/
def isCreation : LifeEvent ι → Bool
  | ⟨_,.inl (.shmget _ _ flag),_⟩ => flag &&& ipcCreat ≠ 0
  | _ => false

def made (tr : List (LifeEvent ι)) (i : ι) : ℕ := tr.countP fun e => e.pid = i ∧ isCreation e

theorem made_snoc (tr : List (LifeEvent ι)) (e : LifeEvent ι) : made (tr ++ [e]) =
    Function.update (made tr) e.pid (made tr e.pid + if isCreation e then 1 else 0) := by
  funext i
  rw [made,List.countP_append,List.countP_singleton]
  by_cases hi : i = e.pid
  · subst hi
    rw [Function.update_self]
    simp [made]
  · rw [Function.update_of_ne hi]
    simp [made,Ne.symm hi]

/-- Between the creation of the key file and that of the segment. -/
def LifePhase.opening : LifePhase → Bool
  | .opened | .keying true | .getting true => true
  | _ => false

/-- Between an `access` that missed the key file and the creation of the segment. -/
def LifePhase.early (p : LifePhase) : Bool := p = .missing || p.opening

/-- What holds between the key file, the phases and the numbers of creations. -/
structure CreateInv (w : ShmWorld ι) (ph : ι → LifePhase) (n : ι → ℕ) : Prop where
  file : ∀ i, (ph i).opening ∨ n i ≠ 0 → w.file = true
  fresh : ∀ i, (ph i).early → n i = 0
  once : ∀ i, n i ≤ 1

variable {w w' : ShmWorld ι} {ph : ι → LifePhase} {n : ι → ℕ}

theorem CreateInv.move (inv : CreateInv w ph n) (hw : w.file = true → w'.file = true) {i : ι}
    {p : LifePhase} {k : ℕ} (hfile : p.opening ∨ k ≠ 0 → w'.file = true)
    (hfresh : p.early → k = 0) (honce : k ≤ 1) :
    CreateInv w' (Function.update ph i p) (Function.update n i k) := by
  refine ⟨fun j => ?_,fun j => ?_,fun j => ?_⟩ <;> by_cases hj : j = i
  · subst hj
    simpa using hfile
  · simpa [hj] using fun h => hw (inv.file j h)
  · subst hj
    simpa using hfresh
  · simpa [hj] using inv.fresh j
  · subst hj
    simpa using honce
  · simpa [hj] using inv.once j

omit [DecidableEq ι] in
theorem modify_file (w : ShmWorld ι) (i : ι) (f : ℕ → (ℕ → ℕ) → ℕ → ℕ) :
    (w.modify i f).file = w.file := by
  rw [ShmWorld.modify]
  split <;> rfl

theorem serve_file {i : ι} {c : SysCall} {r : c.Answer} (h : serve path key w i c r = some w')
    (hfile : w.file = true) : w'.file = true := by
  unfold serve at h
  split at h
  all_goals repeat' split at h
  all_goals simp only [Option.some.injEq,reduceCtorEq] at h
  all_goals subst h
  all_goals first | exact hfile | rfl | exact (modify_file ..).trans hfile

theorem serveLife_file {i : ι} {c : AnyCall} {r : AnyCall.Answer c}
    (h : serveLife path key w i c r = some w') (hfile : w.file = true) : w'.file = true := by
  rcases c with c | c
  · exact serve_file h hfile
  · cases c with
    | shmctlRmid id =>
      rcases r with e | _ <;> obtain rfl := Option.some.inj h <;> exact hfile
    | returned ret =>
      obtain rfl := Option.some.inj h
      exact hfile

theorem serveLife_ftok {i : ι} {m k : ℤ}
    (h : serveLife path key w i (.inl (.ftok path m)) (.ok k) = some w') :
    k = key ∧ w = w' := by
  simp only [serveLife,serve,true_and] at h
  split at h
  · simp at h
  · next hkey => exact ⟨(not_not.mp hkey).2,Option.some.inj h⟩

theorem CreateInv.quiet (inv : CreateInv w ph n) {i : ι} {p : LifePhase} {e : LifeEvent ι}
    (hw : w.file = true → w'.file = true) (hp : p.early = false) (he : isCreation e = false) :
    CreateInv w' (Function.update ph i p)
      (Function.update n i (n i + if isCreation e then 1 else 0)) := by
  have hopening : p.opening = false := (Bool.or_eq_false_iff.mp hp).2
  rw [he]
  refine inv.move hw (fun h => hw (inv.file i (Or.inr (h.resolve_left ?_)))) (fun h => ?_) (inv.once i)
  · simp [hopening]
  · exact absurd h (by simp [hp])

theorem CreateInv.goOn (inv : CreateInv w ph n) {i : ι} {p : LifePhase} {e : LifeEvent ι}
    (hw : w'.file = true) (hi : (ph i).early) (he : isCreation e = false) :
    CreateInv w' (Function.update ph i p)
      (Function.update n i (n i + if isCreation e then 1 else 0)) := by
  have hn := inv.fresh i hi
  rw [he,hn]
  exact inv.move (fun _ => hw) (fun _ => hw) (fun _ => rfl) (Nat.zero_le _)

/-- Who asks to create the segment has not asked before. -/
theorem CreateInv.got (inv : CreateInv w ph n) {i : ι} {creating : Bool} {k : ℤ} {size flag : ℕ}
    {r : Except Errno ℤ} {p : LifePhase} (hw : w.file = true → w'.file = true)
    (hph : ph i = .getting creating)
    (hflag : creating = true ↔ flag &&& ipcCreat ≠ 0) (hp : p.early = false) :
    CreateInv w' (Function.update ph i p)
      (Function.update n i (n i + if isCreation (ι :=
        ι) ⟨i,.inl (.shmget k size flag),r⟩ then 1 else 0)) := by
  cases creating with
  | false =>
    have hnot : ¬ flag &&& ipcCreat ≠ 0 := fun h => absurd (hflag.mpr h) (by decide)
    exact inv.quiet hw hp (by simpa [isCreation] using hnot)
  | true =>
    have hopening : (ph i).opening = true := by rw [hph]; rfl
    have hcreation : isCreation (ι := ι) ⟨i,.inl (.shmget k size flag),r⟩ = true := by
      simpa [isCreation] using hflag
    rw [hcreation,inv.fresh i (by rw [hph]; rfl)]
    exact inv.move hw (fun _ => hw (inv.file i (Or.inl hopening)))
      (fun h => absurd h (by simp [hp])) (by decide)

/-- One call that the phase of its process allows. -/
theorem CreateInv.step {i : ι} {c : AnyCall} {r : AnyCall.Answer c} (inv : CreateInv w ph n)
    (hallows : (lifePhases path key).allows (ph i) c) (hserve : serveLife path key w i c r = some w') :
    (lifePhases path key).answers (ph i) c r ∧
      CreateInv w' (Function.update ph i ((lifePhases path key).next (ph i) c r))
        (Function.update n i (n i + if isCreation ⟨i,c,r⟩ then 1 else 0)) := by
  have hw := serveLife_file hserve
  rcases c with c | c
  swap
  · have hnext : (lifePhases path key).next (ph i) (.inr c) r = .idle := by cases ph i <;> rfl
    have hanswers : (lifePhases path key).answers (ph i) (.inr c) r := by cases ph i <;> trivial
    rw [hnext]
    exact ⟨hanswers,inv.quiet hw rfl rfl⟩
  cases hph : ph i with
  | idle =>
    rw [hph] at hallows
    cases c with
    | access p =>
      obtain rfl : p = path := hallows
      refine ⟨trivial,?_⟩
      rcases r with e | _
      · -- the key file is missing, so nobody has created the segment
        have hfile : w.file ≠ true := by
          intro hf
          simp [serveLife,serve,hf] at hserve
        have hn : n i = 0 := by
          by_contra hn
          exact hfile (inv.file i (Or.inr hn))
        change CreateInv w' (Function.update ph i .missing) (Function.update n i (n i + 0))
        rw [hn]
        exact inv.move hw (fun h => absurd h (by simp [LifePhase.opening])) (fun _ => rfl)
          (Nat.zero_le _)
      · exact inv.quiet hw rfl rfl
    | malloc size => exact ⟨trivial,inv.quiet hw rfl rfl⟩
    | free addr => exact ⟨trivial,inv.quiet hw rfl rfl⟩
    | _ => exact False.elim hallows
  | missing =>
    rw [hph] at hallows
    cases c with
    | openCreate p =>
      obtain rfl : p = path := hallows
      refine ⟨trivial,?_⟩
      rcases r with e | fd
      · exact inv.quiet hw rfl rfl
      · have hfile : w'.file = true := by
          simp only [serveLife,serve,if_true,Option.some.injEq] at hserve
          rw [← hserve]
        exact inv.goOn hfile (by rw [hph]; rfl) rfl
    | _ => exact False.elim hallows
  | opened =>
    rw [hph] at hallows
    have hopening : (ph i).opening = true := by rw [hph]; rfl
    have hearly : (ph i).early = true := by rw [hph]; rfl
    cases c with
    | close fd =>
      exact ⟨trivial,inv.goOn (hw (inv.file i (Or.inl hopening))) hearly rfl⟩
    | _ => exact False.elim hallows
  | keying creating =>
    rw [hph] at hallows
    cases c with
    | ftok p m =>
      obtain rfl : p = path := hallows
      rcases r with e | k
      · exact ⟨trivial,inv.quiet hw rfl rfl⟩
      · refine ⟨(serveLife_ftok hserve).1,?_⟩
        cases creating with
        | false => exact inv.quiet hw rfl rfl
        | true =>
          have hopening : (ph i).opening = true := by rw [hph]; rfl
          have hearly : (ph i).early = true := by rw [hph]; rfl
          exact inv.goOn (hw (inv.file i (Or.inl hopening))) hearly rfl
    | _ => exact False.elim hallows
  | getting creating =>
    rw [hph] at hallows
    cases c with
    | shmget k size flag =>
      obtain ⟨rfl,hflag⟩ := hallows
      refine ⟨trivial,?_⟩
      rcases r with e | id
      · exact inv.got hw hph hflag rfl
      · exact inv.got hw hph hflag rfl
    | _ => exact False.elim hallows
  | attaching creating =>
    rw [hph] at hallows
    cases c with
    | shmat id =>
      refine ⟨trivial,?_⟩
      rcases r with e | base
      · exact inv.quiet hw rfl rfl
      · cases creating <;> exact inv.quiet hw rfl rfl
    | _ => exact False.elim hallows
  | zeroing =>
    rw [hph] at hallows
    cases c with
    | zero addr size => exact ⟨trivial,inv.quiet hw rfl rfl⟩
    | _ => exact False.elim hallows
  | ready =>
    rw [hph] at hallows
    exact False.elim hallows
  | failed =>
    rw [hph] at hallows
    exact False.elim hallows

variable {us : ι → Holder} {scripts : ι → ℕ → LifeOp} {tr tr' : List (LifeEvent ι)}
  {c c' : Program.Config ι (ShmWorld ι) AnyCall AnyCall.Answer}

theorem life_invariant
    (hrun : Program.Run (serveLife (path.take (keyPathLen-1)) key) Program.anyCall
      (holders us path scripts) tr c) :
    CreateInv c.world (lifePhasesOf path key tr) (made tr) ∧ ∀ i, (c.procs i).Follows
      (lifePhases (path.take (keyPathLen-1)) key) (lifePhasesOf path key tr i) fun _ _ => True := by
  refine hrun.invariant (I := fun w tr => CreateInv w (lifePhasesOf path key tr) (made tr)) ?_
    (fun i => (us i).live_follows path key (scripts i)) ?_
  · exact ⟨fun i h => absurd h (by simp [made,lifePhasesOf,LifePhase.opening]),fun _ _ => rfl,
      fun _ => Nat.zero_le _⟩
  · intro w tr i c r w' inv hallows hserve _
    obtain ⟨hanswers,inv'⟩ := inv.step hallows hserve
    have hphases : lifePhasesOf path key (tr ++ [⟨i,c,r⟩]) =
      Function.update (lifePhasesOf path key tr) i
        ((lifePhases (path.take (keyPathLen-1)) key).next (lifePhasesOf path key tr i) c r) :=
      Program.after_snoc _
    rw [hphases,made_snoc]
    exact ⟨hanswers,inv'⟩

/-- However often the processes destroy the segment and attach again, each of them asks to create it
at most once, also if it is refused. -/
theorem run_creates_once
    (hrun : Program.Run (serveLife (path.take (keyPathLen-1)) key) Program.anyCall
      (holders us path scripts) tr c) (i : ι) : made tr i ≤ 1 :=
  (life_invariant hrun).1.once i

/-- A process that attaches and destroys in turn, and has no object yet. -/
def blankHolder : Holder := ⟨0,⟨true,0,0,0,0,[]⟩,Registry.empty⟩

def inTurn (n : ℕ) : LifeOp := if n % 2 = 0 then .init 16 else .destroy

def firstLife : List (LifeEvent Bool) :=
  [⟨true,.inl (.malloc 168),(4096 : ℕ)⟩,⟨true,.inl (.access ['k']),.error .ENOENT⟩,
    ⟨true,.inl (.openCreate ['k']),.ok 3⟩,⟨true,.inl (.close 3),()⟩,⟨true,.inl (.ftok ['k'] 1),.ok 7⟩,
    ⟨true,.inl (.shmget 7 16 1023),.ok 0⟩,⟨true,.inl (.shmat 0),.ok 8192⟩,
    ⟨true,.inl (.zero 8192 16),()⟩,⟨true,.inr (.returned 0),()⟩,⟨true,.inr (.shmctlRmid 0),.ok ()⟩,
    ⟨true,.inl (.free 4096),()⟩]

def secondLife : List (LifeEvent Bool) :=
  [⟨true,.inl (.malloc 168),(4096 : ℕ)⟩,⟨true,.inl (.access ['k']),.ok ()⟩,
    ⟨false,.inl (.malloc 168),(5000 : ℕ)⟩,⟨false,.inl (.access ['k']),.ok ()⟩,
    ⟨true,.inl (.ftok ['k'] 1),.ok 7⟩,⟨true,.inl (.shmget 7 16 511),.error .ENOENT⟩,
    ⟨true,.inr (.returned (-4)),()⟩,⟨false,.inl (.ftok ['k'] 1),.ok 7⟩,
    ⟨false,.inl (.shmget 7 16 511),.error .ENOENT⟩,⟨false,.inr (.returned (-4)),()⟩]

theorem lives_run : ∃ c c', c.world.file = true ∧ c.world.seg = none ∧
    Program.Run (serveLife (List.take (keyPathLen-1) ['k']) 7) Program.anyCall
      (holders (fun _ => blankHolder) ['k'] fun _ => inTurn) firstLife c ∧
    Program.Run (serveLife (List.take (keyPathLen-1) ['k']) 7) Program.anyCall c secondLife c' ∧
    Program.Run (serveLife (List.take (keyPathLen-1) ['k']) 7) Program.anyCall
      (holders (fun _ => blankHolder) ['k'] fun _ => inTurn) (firstLife ++ secondLife) c' := by
  have hexec : ((Program.exec (serveLife ['k'] 7)
    (holders (fun _ => blankHolder) ['k'] fun _ => inTurn)
      firstLife).bind fun c => (Program.exec (serveLife ['k'] 7) c secondLife).map fun _ =>
        (c.world.file,c.world.seg.isNone)) = some (true,true) := by decide +kernel
  obtain ⟨c,hc,hthen⟩ := Option.bind_eq_some_iff.mp hexec
  obtain ⟨c',hc',hworld⟩ := Option.map_eq_some_iff.mp hthen
  obtain ⟨hfile,hseg⟩ := Prod.mk.inj hworld
  have hrun := Program.Run.refl.exec (Program.complies_anyCall _) hc
  exact ⟨c,c',hfile,Option.isNone_iff_eq_none.mp hseg,hrun,Program.Run.refl.exec
    (Program.complies_anyCall _) hc',
    hrun.exec (Program.complies_anyCall _) hc'⟩

theorem run_creates_once_lives : made (firstLife ++ secondLife) true = 1 ∧
    ∀ i, made (firstLife ++ secondLife) i ≤ 1 := by
  obtain ⟨c,c',_,_,_,_,hrun⟩ := lives_run
  exact ⟨by decide,run_creates_once hrun⟩

/-- No call of `shm_init` that is under way will find or create a segment. -/
def LifePhase.lost : LifePhase → Bool
  | .idle | .keying false | .getting false | .failed => true
  | _ => false

/-- The key file is there, the segment is not, and nobody is going to create it. -/
structure GoneInv (w : ShmWorld ι) (ph : ι → LifePhase) (tr : List (LifeEvent ι)) : Prop where
  file : w.file = true
  seg : w.seg = none
  lost : ∀ i, (ph i).lost = true
  fails : ∀ i ret, ⟨i,.inr (.returned ret),()⟩ ∈ tr → ret ≠ 0
  asks : ∀ e ∈ tr, isCreation e = false

theorem GoneInv.move (inv : GoneInv w ph tr) {e : LifeEvent ι} {p : LifePhase} (hp : p.lost = true)
    (he : ∀ i ret, e = ⟨i,.inr (.returned ret),()⟩ → ret ≠ 0) (hasks : isCreation e = false) :
    GoneInv w (Function.update ph e.pid p) (tr ++ [e]) := by
  refine ⟨inv.file,inv.seg,fun j => ?_,fun j ret hmem => ?_,
    List.forall_mem_append.mpr ⟨inv.asks,fun d hd => List.mem_singleton.mp hd ▸ hasks⟩⟩
  · by_cases hj : j = e.pid
    · subst hj
      simpa using hp
    · simpa [hj] using inv.lost j
  · rcases List.mem_append.mp hmem with hmem | hmem
    · exact inv.fails j ret hmem
    · exact he j ret (List.mem_singleton.mp hmem).symm

theorem GoneInv.quiet (inv : GoneInv w ph tr) {i : ι} {c : SysCall} {r : c.Answer} {p : LifePhase}
    (hp : p.lost = true) (hasks : isCreation (ι := ι) ⟨i,.inl c,r⟩ = false) :
    GoneInv w (Function.update ph i p) (tr ++ [⟨i,.inl c,r⟩]) := by
  refine inv.move (e := ⟨i,.inl c,r⟩) hp (fun j ret he => ?_) hasks
  exact absurd (congrArg Program.Event.call he) (by simp)

theorem GoneInv.step {i : ι} {c : AnyCall} {r : AnyCall.Answer c} (inv : GoneInv w ph tr)
    (hallows : (lifePhases path key).allows (ph i) c) (hserve : serveLife path key w i c r = some w') :
    (lifePhases path key).answers (ph i) c r ∧
      GoneInv w' (Function.update ph i ((lifePhases path key).next (ph i) c r)) (tr ++ [⟨i,c,r⟩]) := by
  have hlost := inv.lost i
  have hreport {ret : ℤ} {r : Unit} (hret : ret ≠ 0) :
      GoneInv w (Function.update ph i .idle) (tr ++ [⟨i,.inr (.returned ret),r⟩]) := by
    refine inv.move (e := ⟨i,.inr (.returned ret),r⟩) rfl (fun j ret' he => ?_) rfl
    have hcall : (Sum.inr (.returned ret) : AnyCall) = .inr (.returned ret') :=
      congrArg Program.Event.call he
    obtain rfl : ret = ret' := by simpa using hcall
    exact hret
  cases hph : ph i with
  | idle =>
    rw [hph] at hallows
    rcases c with c | c
    · cases c with
      | access p =>
        obtain rfl : p = path := hallows
        rcases r with e | _
        · simp [serveLife,serve,inv.file] at hserve
        · have hw : w = w' := by simpa [serveLife,serve,inv.file] using hserve
          exact ⟨trivial,hw ▸ inv.quiet rfl rfl⟩
      | malloc size =>
        obtain rfl := Option.some.inj hserve
        exact ⟨trivial,inv.quiet rfl rfl⟩
      | free addr =>
        obtain rfl := Option.some.inj hserve
        exact ⟨trivial,inv.quiet rfl rfl⟩
      | _ => exact False.elim hallows
    · cases c with
      | shmctlRmid id =>
        have hmove := inv.move (e := ⟨i,.inr (.shmctlRmid id),r⟩) (p := .idle) rfl
          (fun j ret he => absurd (congrArg Program.Event.call he) (by simp)) rfl
        rcases r with e | _
        · obtain rfl := Option.some.inj hserve
          exact ⟨trivial,hmove⟩
        · have hw : w = w' := by
            have := Option.some.inj hserve
            rwa [inv.seg,Option.filter_none,← inv.seg] at this
          exact ⟨trivial,hw ▸ hmove⟩
      | returned ret =>
        obtain rfl := Option.some.inj hserve
        exact ⟨trivial,hreport hallows⟩
  | keying creating =>
    rw [hph] at hallows hlost
    obtain rfl : creating = false := by cases creating <;> trivial
    rcases c with c | c
    · cases c with
      | ftok p m =>
        obtain rfl : p = path := hallows
        rcases r with e | k
        · obtain rfl := Option.some.inj hserve
          exact ⟨trivial,inv.quiet rfl rfl⟩
        · obtain ⟨hkey,rfl⟩ := serveLife_ftok hserve
          exact ⟨hkey,inv.quiet rfl rfl⟩
      | _ => exact False.elim hallows
    · exact False.elim hallows
  | getting creating =>
    rw [hph] at hallows hlost
    obtain rfl : creating = false := by cases creating <;> trivial
    rcases c with c | c
    · cases c with
      | shmget k size flag =>
        obtain ⟨rfl,hflag⟩ := hallows
        have hflag' : ¬ flag &&& ipcCreat ≠ 0 := fun h => absurd (hflag.mpr h) (by decide)
        rcases r with e | id
        · obtain rfl := Option.some.inj hserve
          exact ⟨trivial,inv.quiet rfl (by simpa [isCreation] using hflag')⟩
        · -- there is no segment, and the process does not create one
          simp only [serveLife,serve,inv.seg,if_true,if_neg hflag'] at hserve
          exact absurd hserve (by simp)
      | _ => exact False.elim hallows
    · exact False.elim hallows
  | failed =>
    rw [hph] at hallows
    rcases c with c | c
    · exact False.elim hallows
    · cases c with
      | shmctlRmid id => exact False.elim hallows
      | returned ret =>
        obtain rfl := Option.some.inj hserve
        exact ⟨trivial,hreport hallows⟩
  | missing | opened | attaching _ | zeroing | ready =>
    rw [hph] at hlost
    exact absurd hlost (by simp [LifePhase.lost])

/-- Once the segment is gone, while no call of `shm_init` is under way, it never comes back: the key
file is still there, so that nobody asks for a new segment, and every later call of `shm_init`
fails. -/
theorem run_gone
    (hrun : Program.Run (serveLife (path.take (keyPathLen-1)) key) Program.anyCall
      (holders us path scripts) tr c)
    (hidle : ∀ i, lifePhasesOf path key tr i = .idle) (hfile : c.world.file = true)
    (hseg : c.world.seg = none)
    (hrun' : Program.Run (serveLife (path.take (keyPathLen-1)) key) Program.anyCall c tr' c') :
    c'.world.seg = none ∧ c'.world.file = true ∧ (∀ e ∈ tr', isCreation e = false) ∧
      ∀ i ret, ⟨i,.inr (.returned ret),()⟩ ∈ tr' → ret ≠ 0 := by
  have hfollows := (life_invariant hrun).2
  have inv := (hrun'.invariant (a := lifePhasesOf path key tr)
    (P := fun _ => lifePhases (path.take (keyPathLen-1)) key)
    (I := fun w tr' => GoneInv w (Program.after (fun _ => lifePhases (path.take (keyPathLen-1)) key)
      (lifePhasesOf path key tr) tr') tr') ⟨hfile,hseg,fun i => by rw [Program.after_nil,hidle i]; rfl,
        fun _ _ hmem => absurd hmem List.not_mem_nil,fun _ hmem =>
          absurd hmem List.not_mem_nil⟩ hfollows ?_).1
  · exact ⟨inv.seg,inv.file,inv.asks,inv.fails⟩
  · intro w tr i c r w' inv hallows hserve _
    obtain ⟨hanswers,inv'⟩ := inv.step hallows hserve
    rw [Program.after_snoc]
    exact ⟨hanswers,inv'⟩

theorem run_gone_lives : ∃ c' : Program.Config Bool (ShmWorld Bool) AnyCall AnyCall.Answer,
    c'.world.seg = none ∧ c'.world.file = true ∧ (∀ e ∈ secondLife, isCreation e = false) ∧
      ∀ i ret, ⟨i,.inr (.returned ret),()⟩ ∈ secondLife → ret ≠ 0 := by
  obtain ⟨c,c',hfile,hseg,hrun,hrun',_⟩ := lives_run
  exact ⟨c',run_gone hrun (by decide) hfile hseg hrun'⟩

end Shm
end LixRtos
