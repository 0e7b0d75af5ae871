import LixRtos.Shm

/-! Processes that attach one shared memory segment at the same time and then write to it.
The window of the race is the one between an `access` that misses the key file and the `memset`
of the same process. -/
namespace LixRtos
namespace Shm

structure Segment where
  id : ℤ
  size : ℕ
  mem : ℕ → ℕ

/-- The key file, the segment of its key, and where each process has mapped it. -/
structure ShmWorld (ι : Type) where
  file : Bool
  seg : Option Segment
  maps : ι → Option ℕ

variable {ι : Type} [DecidableEq ι]

/-- Process `i` changes the memory of the segment through its mapping. -/
def ShmWorld.modify (w : ShmWorld ι) (i : ι) (f : ℕ → (ℕ → ℕ) → ℕ → ℕ) : ShmWorld ι :=
  match w.maps i with
  | some base => { w with seg := w.seg.map fun s => { s with mem := f base s.mem } }
  | none => w

/-- The system calls on the key file at `path`, whose key is `key`. A new segment is zero. -/
def serve (path : Path) (key : ℤ) (w : ShmWorld ι) (i : ι) :
    (c : SysCall) → c.Answer → Option (ShmWorld ι)
  | .access p, .ok _ => if p = path ∧ w.file = false then none else some w
  | .access p, .error _ => if p = path ∧ w.file = true then none else some w
  | .openCreate p, .ok _ => some (if p = path then { w with file := true } else w)
  | .ftok p _, .ok k => if p = path ∧ ¬ (w.file = true ∧ k = key) then none else some w
  | .shmget k size flag, .ok id =>
    if k = key then
      match w.seg with
      | some s => if s.id = id ∧ size ≤ s.size then some w else none
      | none =>
        if flag &&& ipcCreat ≠ 0 then some { w with seg := some ⟨id,size,fun _ => 0⟩ } else none
    else some w
  | .shmat id, .ok base =>
    match w.seg with
    | some s => some (if s.id = id then { w with maps := Function.update w.maps i (some base) } else w)
    | none => some w
  | .store addr val, _ =>
    some (w.modify i fun base mem => if base ≤ addr then Function.update mem (addr-base) val else mem)
  | .zero addr size, _ =>
    some (w.modify i fun base mem o => if addr ≤ base+o ∧ base+o < addr+size then 0 else mem o)
  | _, _ => some w

/-- A process: attach the segment, then write to it for ever, at the offsets of its script. -/
def writer (shm : Shm) (path : Path) (size : ℕ) (script : ℕ → ℕ × ℕ) : Sys Unit := do
  let r ← shmInit (some shm) (some path) size
  match r with
  | (0,some shm) =>
    Program.iterate (fun n : ℕ => do
      Sys.request (.store (shm.mem+(script n).1) (script n).2)
      pure (.inl (n+1))) 0
  | _ => pure ()

/-- How far a process is. A process that found the key file missing is creating until its
`memset`. -/
inductive Phase
  | start
  | missing
  | opened
  | keying (creating : Bool)
  | getting (creating : Bool)
  | attaching (creating : Bool) (id : ℤ)
  | zeroing (base : ℕ)
  | ready (base : ℕ)
  | stopped
  deriving DecidableEq

def Phase.creating : Phase → Bool
  | .missing | .opened | .keying true | .getting true | .attaching true _ | .zeroing _ => true
  | _ => false

/-- The calls of each phase. `ftok` answers with the key of the path. -/
def phases (path : Path) (key : ℤ) : Program.Protocol SysCall SysCall.Answer Phase where
  allows
    | .start, .access p => p = path
    | .missing, .openCreate p => p = path
    | .opened, .close _ => True
    | .keying _, .ftok p _ => p = path
    | .getting creating, .shmget k _ flag => k = key ∧ (creating = true ↔ flag &&& ipcCreat ≠ 0)
    | .attaching _ id, .shmat i => i = id
    | .zeroing base, .zero addr _ => addr = base
    | .ready base, .store addr _ => base ≤ addr
    | _, _ => False
  answers
    | .keying _, .ftok _ _, .ok k => k = key
    | _, _, _ => True
  next
    | .start, .access _, .ok _ => .keying false
    | .start, .access _, .error _ => .missing
    | .missing, .openCreate _, .ok _ => .opened
    | .opened, .close _, _ => .keying true
    | .keying creating, .ftok _ _, .ok _ => .getting creating
    | .getting creating, .shmget _ _ _, .ok id => .attaching creating id
    | .attaching creating _, .shmat _, .ok base => if creating then .zeroing base else .ready base
    | .zeroing base, .zero _ _, _ => .ready base
    | .ready base, .store _ _, _ => .ready base
    | _, _, _ => .stopped

/-- `shm_init` from `ftok` on: only a creating process clears the memory. -/
theorem attach_follows {path : Path} {key : ℤ} {shm : Shm} {creating : Bool} {flag : ℕ}
    (hpath : shm.keyPath = path) (hflag : creating = true ↔ flag &&& ipcCreat ≠ 0) :
    (attach shm flag).Follows (phases path key) (.keying creating) fun ph r =>
      r.1 = 0 → ∃ shm, r.2 = some shm ∧ ph = .ready shm.mem := by
  refine Program.Follows.bind (Program.Follows.perform hpath ?_)
  rintro (e | k) hk
  · exact fun h => absurd h (by simp)
  refine Program.Follows.bind (Program.Follows.perform ⟨hk,hflag⟩ ?_)
  rintro (e | id) _
  · exact fun h => absurd h (by simp)
  refine Program.Follows.bind (Program.Follows.perform rfl ?_)
  rintro (e | base) _
  · exact fun h => absurd h (by simp)
  cases creating with
  | false =>
    have hflag' : ¬ flag &&& ipcCreat ≠ 0 := fun h => absurd (hflag.mpr h) (by decide)
    simp only [if_neg hflag']
    exact fun _ => ⟨_,rfl,rfl⟩
  | true =>
    simp only [if_pos (hflag.mp rfl)]
    refine Program.Follows.bind (Program.Follows.perform rfl ?_)
    exact fun _ _ _ => ⟨_,rfl,rfl⟩

theorem shmInit_follows (shm : Shm) (path : Path) (size : ℕ) (key : ℤ) :
    (shmInit (some shm) (some path) size).Follows (phases (path.take (keyPathLen-1)) key) .start
      fun ph r => r.1 = 0 → ∃ shm, r.2 = some shm ∧ ph = .ready shm.mem := by
  unfold shmInit
  by_cases hsize : size = 0
  · simp only [hsize,if_true]
    exact fun h => absurd h (by simp)
  simp only [hsize,if_false]
  refine Program.Follows.bind (Program.Follows.perform rfl ?_)
  rintro (e | _) _
  · refine Program.Follows.bind (Program.Follows.perform rfl ?_)
    rintro (e | fd) _
    · exact fun h => absurd h (by simp)
    · refine Program.Follows.bind (Program.Follows.perform trivial ?_)
      exact fun _ _ => attach_follows rfl (by decide)
  · exact attach_follows rfl (by decide)

theorem writer_follows (shm : Shm) (path : Path) (size : ℕ) (script : ℕ → ℕ × ℕ) (key : ℤ) :
    (writer shm path size script).Follows (phases (path.take (keyPathLen-1)) key) .start
      fun _ _ => True := by
  refine Program.Follows.bind ((shmInit_follows shm path size key).mono ?_)
  rintro ph ⟨ret,shm⟩ h
  split
  · next shm' heq =>
    obtain ⟨rfl,rfl⟩ := Prod.mk.inj heq
    obtain ⟨_,hshm,rfl⟩ := h rfl
    obtain rfl := Option.some.inj hshm
    apply Program.Follows.iterate (fun ph _ => ph = .ready shm'.mem) rfl
    rintro _ n rfl
    exact Program.Follows.bind (Program.Follows.perform (Nat.le_add_right _ _) fun _ _ => rfl)
  · trivial

abbrev Trace (ι : Type) := List (Program.Event ι SysCall SysCall.Answer)

omit [DecidableEq ι] in
def isStore : Program.Event ι SysCall SysCall.Answer → Bool
  | ⟨_,.store _ _,_⟩ => true
  | _ => false

omit [DecidableEq ι] in
def isZero : Program.Event ι SysCall SysCall.Answer → Bool
  | ⟨_,.zero _ _,_⟩ => true
  | _ => false

/-- Where the processes have mapped the segment, and what was last written to each byte of it. -/
structure Written (ι : Type) where
  maps : ι → Option ℕ
  last : ℕ → Option ℕ

def Written.record (wr : Written ι) : Program.Event ι SysCall SysCall.Answer → Written ι
  | ⟨i,.shmat _,.ok base⟩ => { wr with maps := Function.update wr.maps i (some base) }
  | ⟨i,.store addr val,_⟩ =>
    match wr.maps i with
    | some base => { wr with last := Function.update wr.last (addr-base) (some val) }
    | none => wr
  | _ => wr

def written (tr : Trace ι) : Written ι := tr.foldl Written.record ⟨fun _ => none,fun _ => none⟩

def phasesOf (path : Path) (key : ℤ) (tr : Trace ι) : ι → Phase :=
  Program.after (fun _ => phases (path.take (keyPathLen-1)) key) (fun _ => .start) tr

/-- Any number of processes at the start, with neither key file nor segment. -/
def processes (shms : ι → Shm) (path : Path) (size : ℕ) (scripts : ι → ℕ → ℕ × ℕ) :
    Program.Config ι (ShmWorld ι) SysCall SysCall.Answer where
  world := ⟨false,none,fun _ => none⟩
  procs i := writer (shms i) path size (scripts i)

def Phase.pastOpen : Phase → Bool
  | .start | .missing | .stopped => false
  | _ => true

def Phase.id? : Phase → Option ℤ
  | .attaching _ id => some id
  | _ => none

def Phase.base? : Phase → Option ℕ
  | .zeroing base | .ready base => some base
  | _ => none

/-- What holds between the world, the phases and the writes; `stored` says that something was
written. -/
structure RaceInv (w : ShmWorld ι) (ph : ι → Phase) (stored : Prop) (wr : Written ι) : Prop where
  file : ∀ i, (ph i).pastOpen → w.file = true
  seg : ∀ i id, (ph i).id? = some id → ∃ s, w.seg = some s ∧ s.id = id
  base : ∀ i base, (ph i).base? = some base → w.maps i = some base ∧ w.seg.isSome
  done : stored → w.file = true ∧ w.seg.isSome ∧ ∀ i, (ph i).creating = false
  maps : w.maps = wr.maps
  last : ∀ o v, wr.last o = some v → stored ∧ ∃ s, w.seg = some s ∧ s.mem o = v

variable {w w' : ShmWorld ι} {ph : ι → Phase} {stored : Prop} {wr : Written ι}

omit [DecidableEq ι] in
theorem RaceInv.not_stored (inv : RaceInv w ph stored wr) {i : ι} (h : (ph i).creating = true) :
    ¬ stored := by
  intro hs
  rw [(inv.done hs).2.2 i] at h
  exact absurd h (by decide)

theorem RaceInv.move (inv : RaceInv w ph stored wr) {i : ι} {p : Phase}
    (hfile : p.pastOpen → w.file = true) (hseg : ∀ id, p.id? = some id → ∃ s, w.seg = some s ∧
      s.id = id)
    (hbase : ∀ base, p.base? = some base → w.maps i = some base ∧ w.seg.isSome)
    (hcreating : p.creating → (ph i).creating ∨ w.file = false) :
    RaceInv w (Function.update ph i p) stored wr := by
  refine ⟨?_,?_,?_,?_,inv.maps,inv.last⟩
  · intro j
    by_cases hj : j = i
    · subst hj
      simpa using hfile
    · simpa [hj] using inv.file j
  · intro j id
    by_cases hj : j = i
    · subst hj
      simpa using hseg id
    · simpa [hj] using inv.seg j id
  · intro j base
    by_cases hj : j = i
    · subst hj
      simpa using hbase base
    · simpa [hj] using inv.base j base
  · intro hs
    obtain ⟨hf,hsome,hnone⟩ := inv.done hs
    refine ⟨hf,hsome,fun j => ?_⟩
    by_cases hj : j = i
    · subst hj
      by_contra h
      rcases hcreating (by simpa using h) with h | h
      · simp [hnone j] at h
      · simp [hf] at h
    · simpa [hj] using hnone j

theorem RaceInv.quiet (inv : RaceInv w ph stored wr) {i : ι} {p : Phase}
    {e : Program.Event ι SysCall SysCall.Answer} (hstore : isStore e = false)
    (hrecord : wr.record e = wr)
    (hfile : p.pastOpen → w.file = true) (hseg : ∀ id, p.id? = some id → ∃ s, w.seg = some s ∧
      s.id = id)
    (hbase : ∀ base, p.base? = some base → w.maps i = some base ∧ w.seg.isSome)
    (hcreating : p.creating → (ph i).creating ∨ w.file = false) :
    RaceInv w (Function.update ph i p) (stored ∨ isStore e) (wr.record e) := by
  simpa [hstore,hrecord] using inv.move hfile hseg hbase hcreating

theorem RaceInv.stop (inv : RaceInv w ph stored wr) {i : ι}
    {e : Program.Event ι SysCall SysCall.Answer} (hstore : isStore e = false)
    (hrecord : wr.record e = wr) :
    RaceInv w (Function.update ph i .stopped) (stored ∨ isStore e) (wr.record e) :=
  inv.quiet hstore hrecord (by simp [Phase.pastOpen]) (by simp [Phase.id?]) (by simp [Phase.base?])
    (by simp [Phase.creating])

theorem RaceInv.openCreate (inv : RaceInv w ph stored wr) {i : ι} (h : ph i = .missing) :
    RaceInv { w with file := true } (Function.update ph i .opened) stored wr := by
  have hstored : ¬ stored := inv.not_stored (i := i) (by rw [h]; rfl)
  have inv' : RaceInv { w with file := true } ph stored wr :=
    ⟨fun _ _ => rfl,inv.seg,inv.base,fun hs => absurd hs hstored,inv.maps,inv.last⟩
  exact inv'.move (fun _ => rfl) (by simp [Phase.id?]) (by simp [Phase.base?])
    (fun _ => Or.inl (by rw [h]; rfl))

theorem RaceInv.access {path : Path} {key : ℤ} {i : ι} {r : Except Errno Unit}
    (inv : RaceInv w ph stored wr) (hserve : serve path key w i (.access path) r = some w') :
    RaceInv w' (Function.update ph i ((phases path key).next .start (.access path) r))
      (stored ∨ isStore ⟨i,.access path,r⟩) (wr.record ⟨i,.access path,r⟩) := by
  rcases r with e | _ <;> simp only [serve,true_and] at hserve <;> split at hserve
  · simp at hserve
  · next hfile =>
    obtain rfl := Option.some.inj hserve
    exact inv.quiet rfl rfl (by simp [phases,Phase.pastOpen]) (by simp [phases,Phase.id?])
      (by simp [phases,Phase.base?]) fun _ => Or.inr (by simpa using hfile)
  · simp at hserve
  · next hfile =>
    obtain rfl := Option.some.inj hserve
    exact inv.quiet rfl rfl (fun _ => by simpa using hfile) (by simp [phases,Phase.id?])
      (by simp [phases,Phase.base?]) (by simp [phases,Phase.creating])

theorem RaceInv.ftok {path : Path} {key n : ℤ} {i : ι} {creating : Bool} {r : Except Errno ℤ}
    (inv : RaceInv w ph stored wr) (hph : ph i = .keying creating)
    (hserve : serve path key w i (.ftok path n) r = some w') :
    (phases path key).answers (.keying creating) (.ftok path n) r ∧
      RaceInv w' (Function.update ph i ((phases path key).next (.keying creating) (.ftok path n) r))
        (stored ∨ isStore ⟨i,.ftok path n,r⟩) (wr.record ⟨i,.ftok path n,r⟩) := by
  have hfile := inv.file i (by rw [hph]; rfl)
  rcases r with e | k
  · obtain rfl := Option.some.inj hserve
    exact ⟨trivial,inv.stop rfl rfl⟩
  · simp only [serve,true_and] at hserve
    split at hserve
    · simp at hserve
    · next hkey =>
      obtain rfl := Option.some.inj hserve
      refine ⟨(not_not.mp hkey).2,inv.quiet rfl rfl (fun _ => hfile) (by simp [phases,Phase.id?])
        (by simp [phases,Phase.base?]) fun h => Or.inl ?_⟩
      cases creating
      · simp [phases,Phase.creating] at h
      · rw [hph]; rfl

theorem RaceInv.shmget {path : Path} {key k : ℤ} {i : ι} {creating : Bool} {size flag : ℕ}
    {r : Except Errno ℤ} (inv : RaceInv w ph stored wr) (hph : ph i = .getting creating)
    (hallows : (phases path key).allows (.getting creating) (.shmget k size flag))
    (hserve : serve path key w i (.shmget k size flag) r = some w') :
    RaceInv w' (Function.update ph i
      ((phases path key).next (.getting creating) (.shmget k size flag) r))
      (stored ∨ isStore ⟨i,.shmget k size flag,r⟩) (wr.record ⟨i,.shmget k size flag,r⟩) := by
  have hfile := inv.file i (by rw [hph]; rfl)
  have hcreating : (Phase.attaching creating 0).creating = (ph i).creating := by
    rw [hph]
    cases creating <;> rfl
  obtain ⟨rfl,hflag⟩ := hallows
  rcases r with e | id
  · obtain rfl := Option.some.inj hserve
    exact inv.stop rfl rfl
  have hsame (b : Bool) : (Phase.attaching b id).creating = (Phase.attaching b 0).creating := by
    cases b <;> rfl
  simp only [serve,if_true] at hserve
  cases hseg : w.seg with
  | some s =>
    simp only [hseg] at hserve
    split at hserve
    · next hid =>
      obtain rfl := Option.some.inj hserve
      exact inv.quiet rfl rfl (fun _ => hfile) (by simp [phases,Phase.id?,hseg,hid.1])
        (by simp [phases,Phase.base?]) fun h => Or.inl (by rwa [← hcreating,← hsame])
    · simp at hserve
  | none =>
    simp only [hseg] at hserve
    split at hserve
    · next h =>
      obtain rfl := hflag.mpr h
      obtain rfl := Option.some.inj hserve
      -- nobody knew a segment before, and nothing was written
      have hstored : ¬ stored := inv.not_stored (i := i) (by rw [hph]; rfl)
      have inv' : RaceInv { w with seg := some ⟨id,size,fun _ => 0⟩ } ph stored wr :=
        ⟨inv.file,fun j id hj => absurd (inv.seg j id hj) (by simp [hseg]),
          fun j base hj => ⟨(inv.base j base hj).1,rfl⟩,fun hs => absurd hs hstored,inv.maps,
          fun o v ho => absurd (inv.last o v ho).1 hstored⟩
      exact inv'.quiet rfl rfl (fun _ => hfile) (fun _ hid => ⟨_,rfl,Option.some.inj hid⟩)
        (by simp [phases,Phase.base?]) fun _ => Or.inl (by rw [hph]; rfl)
    · simp at hserve

theorem RaceInv.shmat {path : Path} {key id : ℤ} {i : ι} {creating : Bool} {base : ℕ}
    (inv : RaceInv w ph stored wr) (hph : ph i = .attaching creating id)
    (hserve : serve path key w i (.shmat id) (.ok base) = some w') :
    RaceInv w' (Function.update ph i (if creating then .zeroing base else .ready base)) stored
      (wr.record ⟨i,.shmat id,.ok base⟩) := by
  obtain ⟨s,hs,hid⟩ := inv.seg i id (by rw [hph]; rfl)
  simp only [serve,hs,hid,if_true,Option.some.injEq] at hserve
  rw [← hs] at hserve
  subst hserve
  have hfile := inv.file i (by rw [hph]; rfl)
  -- the process has not mapped the segment yet, so nobody's base changes
  have inv' : RaceInv { w with maps := Function.update w.maps i (some base) } ph stored
      (wr.record ⟨i,.shmat id,.ok base⟩) := by
    refine ⟨inv.file,inv.seg,fun j b hj => ?_,inv.done,?_,inv.last⟩
    · have hne : j ≠ i := by
        rintro rfl
        rw [hph] at hj
        exact absurd hj (by simp [Phase.base?])
      simpa [hne] using inv.base j b hj
    · simp [Written.record,inv.maps]
  refine inv'.move (fun _ => hfile) ?_ ?_ ?_
  · cases creating <;> simp [Phase.id?]
  · cases creating <;> simp [Phase.base?,hs]
  · cases creating
    · simp [Phase.creating]
    · exact fun _ => Or.inl (by rw [hph]; rfl)

theorem RaceInv.zero {path : Path} {key : ℤ} {i : ι} {base size : ℕ}
    (inv : RaceInv w ph stored wr) (hph : ph i = .zeroing base)
    (hserve : serve path key w i (.zero base size) () = some w') :
    ¬ stored ∧ RaceInv w' (Function.update ph i (.ready base)) stored wr := by
  have hstored : ¬ stored := inv.not_stored (i := i) (by rw [hph]; rfl)
  obtain ⟨hmap,hsome⟩ := inv.base i base (by rw [hph]; rfl)
  obtain rfl := Option.some.inj hserve
  obtain ⟨s,hs⟩ := Option.isSome_iff_exists.mp hsome
  have hfile := inv.file i (by rw [hph]; rfl)
  refine ⟨hstored,?_⟩
  simp only [ShmWorld.modify,hmap,hs,Option.map_some]
  have inv' : RaceInv { w with seg := some { s with mem := fun o =>
      if base ≤ base+o ∧ base+o < base+size then 0 else s.mem o } } ph stored wr := by
    refine ⟨inv.file,fun j id hj => ?_,fun j b hj => ⟨(inv.base j b hj).1,rfl⟩,fun hs =>
      absurd hs hstored,
      inv.maps,fun o v ho => absurd (inv.last o v ho).1 hstored⟩
    obtain ⟨s',hs',hid⟩ := inv.seg j id hj
    obtain rfl := Option.some.inj (hs.symm.trans hs')
    exact ⟨_,rfl,hid⟩
  exact inv'.move (fun _ => hfile) (by simp [Phase.id?]) (by simp [Phase.base?,hmap])
    (by simp [Phase.creating])

theorem RaceInv.store {path : Path} {key : ℤ} {i : ι} {base addr val : ℕ}
    (inv : RaceInv w ph stored wr) (hph : ph i = .ready base) (haddr : base ≤ addr)
    (hserve : serve path key w i (.store addr val) () = some w')
    (hcond : ∀ j, (ph j).creating = false) :
    RaceInv w' (Function.update ph i (.ready base)) True (wr.record ⟨i,.store addr val,()⟩) := by
  obtain ⟨hmap,hsome⟩ := inv.base i base (by rw [hph]; rfl)
  obtain ⟨s,hs⟩ := Option.isSome_iff_exists.mp hsome
  have hfile := inv.file i (by rw [hph]; rfl)
  have hrecord : wr.record ⟨i,.store addr val,()⟩ =
      { wr with last := Function.update wr.last (addr-base) (some val) } := by
    simp [Written.record,← inv.maps,hmap]
  rw [hrecord,← hph,Function.update_eq_self]
  simp only [serve,ShmWorld.modify,hmap,hs,if_pos haddr,Option.map_some,Option.some.injEq] at hserve
  subst hserve
  refine ⟨inv.file,fun j id hj => ?_,fun j b hj => ⟨(inv.base j b hj).1,rfl⟩,fun _ =>
    ⟨hfile,rfl,hcond⟩,inv.maps,
    fun o v ho => ⟨trivial,_,rfl,?_⟩⟩
  · obtain ⟨s',hs',hid⟩ := inv.seg j id hj
    obtain rfl := Option.some.inj (hs.symm.trans hs')
    exact ⟨_,rfl,hid⟩
  · by_cases hoff : o = addr-base
    · subst hoff
      simpa using ho
    · obtain ⟨_,s',hs',hv⟩ := inv.last o v (by simpa [hoff] using ho)
      obtain rfl := Option.some.inj (hs.symm.trans hs')
      simpa [hoff] using hv

/-- One call that the phase of its process allows. -/
theorem RaceInv.step {path : Path} {key : ℤ} {i : ι} {c : SysCall} {r : c.Answer}
    (inv : RaceInv w ph stored wr) (hallows : (phases path key).allows (ph i) c)
    (hserve : serve path key w i c r = some w')
    (hcond : isStore ⟨i,c,r⟩ → ∀ j, (ph j).creating = false) :
    (phases path key).answers (ph i) c r ∧
      RaceInv w' (Function.update ph i ((phases path key).next (ph i) c r)) (stored ∨ isStore ⟨i,c,r⟩)
        (wr.record ⟨i,c,r⟩) ∧
      (isZero ⟨i,c,r⟩ → ¬ stored) := by
  cases hph : ph i with
  | start =>
    rw [hph] at hallows
    cases c with
    | access p =>
      obtain rfl : p = path := hallows
      exact ⟨trivial,inv.access hserve,fun h => absurd h (by simp [isZero])⟩
    | _ => exact False.elim hallows
  | missing =>
    rw [hph] at hallows
    cases c with
    | openCreate p =>
      obtain rfl : p = path := hallows
      refine ⟨trivial,?_,fun h => absurd h (by simp [isZero])⟩
      rcases r with e | fd
      · obtain rfl := Option.some.inj hserve
        exact inv.stop rfl rfl
      · simp only [serve,if_true,Option.some.injEq] at hserve
        subst hserve
        simpa [isStore,phases,Written.record] using inv.openCreate hph
    | _ => exact False.elim hallows
  | opened =>
    rw [hph] at hallows
    cases c with
    | close fd =>
      obtain rfl := Option.some.inj hserve
      have hfile := inv.file i (by rw [hph]; rfl)
      exact ⟨trivial,inv.quiet rfl rfl (fun _ => hfile) (by simp [phases,Phase.id?])
        (by simp [phases,Phase.base?]) (fun _ => Or.inl (by rw [hph]; rfl)),fun h =>
          absurd h (by simp [isZero])⟩
    | _ => exact False.elim hallows
  | keying creating =>
    rw [hph] at hallows
    cases c with
    | ftok p n =>
      obtain rfl : p = path := hallows
      obtain ⟨hanswers,inv'⟩ := inv.ftok hph hserve
      exact ⟨hanswers,inv',fun h => absurd h (by simp [isZero])⟩
    | _ => exact False.elim hallows
  | getting creating =>
    rw [hph] at hallows
    cases c with
    | shmget k n flag =>
      exact ⟨trivial,inv.shmget hph hallows hserve,fun h => absurd h (by simp [isZero])⟩
    | _ => exact False.elim hallows
  | attaching creating id =>
    rw [hph] at hallows
    cases c with
    | shmat id' =>
      obtain rfl : id' = id := hallows
      refine ⟨trivial,?_,fun h => absurd h (by simp [isZero])⟩
      rcases r with e | base
      · obtain rfl := Option.some.inj hserve
        exact inv.stop rfl rfl
      · simpa [isStore,phases] using inv.shmat hph hserve
    | _ => exact False.elim hallows
  | zeroing base =>
    rw [hph] at hallows
    cases c with
    | zero addr size =>
      obtain rfl : addr = base := hallows
      obtain ⟨hstored,inv'⟩ := inv.zero hph hserve
      exact ⟨trivial,by simpa [isStore,phases,Written.record] using inv',fun _ => hstored⟩
    | _ => exact False.elim hallows
  | ready base =>
    rw [hph] at hallows
    cases c with
    | store addr val =>
      refine ⟨trivial,?_,fun h => absurd h (by simp [isZero])⟩
      simpa [isStore,phases] using inv.store hph hallows hserve (hcond rfl)
    | _ => exact False.elim hallows
  | stopped =>
    rw [hph] at hallows
    exact False.elim hallows

/-- No `memset` covers a byte of the segment that another process has written before. -/
def NoErasure (tr : Trace ι) : Prop :=
  ∀ pre mid post i j addr val base size,
    tr = pre ++ ⟨i,.store addr val,()⟩ :: (mid ++ ⟨j,.zero base size,()⟩ :: post) → i ≠ j →
      ∀ start, (written pre).maps i = some start → size ≤ addr-start

/-- Each byte of the segment that was written is what was written last. -/
def Kept (w : ShmWorld ι) (tr : Trace ι) : Prop :=
  ∀ o v, (written tr).last o = some v → ∃ s, w.seg = some s ∧ s.mem o = v

def NoCreator (path : Path) (key : ℤ) (_ : ShmWorld ι) (tr : Trace ι)
    (e : Program.Event ι SysCall SysCall.Answer) : Prop :=
  isStore e → ∀ i, (phasesOf path key tr i).creating = false

def NoLateZero (tr : Trace ι) : Prop :=
  ∀ pre e, pre ++ [e] <+: tr → isZero e → ∀ d ∈ pre, isStore d = false

omit [DecidableEq ι] in
theorem NoLateZero.snoc {tr : Trace ι} {e : Program.Event ι SysCall SysCall.Answer}
    (h : NoLateZero tr) (he : isZero e → ¬ ∃ d ∈ tr, isStore d) : NoLateZero (tr ++ [e]) :=
  Program.not_after_snoc h he

theorem NoLateZero.noErasure {tr : Trace ι} (h : NoLateZero tr) : NoErasure tr := by
  intro pre mid post i j addr val base size htr
  have hprefix : pre ++ ⟨i,.store addr val,()⟩ :: mid ++ [⟨j,.zero base size,()⟩] <+: tr :=
    ⟨post,by simp [htr]⟩
  have hstore := h _ _ hprefix rfl ⟨i,.store addr val,()⟩ (by simp)
  exact absurd hstore (by simp [isStore])

theorem written_snoc (tr : Trace ι) (e : Program.Event ι SysCall SysCall.Answer) :
    written (tr ++ [e]) = (written tr).record e := by
  simp [written]

theorem run_invariant {shms : ι → Shm} {path : Path} {size : ℕ} {scripts : ι → ℕ → ℕ × ℕ} {key : ℤ}
    {tr : Trace ι} {c : Program.Config ι (ShmWorld ι) SysCall SysCall.Answer}
    (hrun : Program.Run (serve (path.take (keyPathLen-1)) key) (NoCreator path key)
      (processes shms path size scripts) tr c) :
    RaceInv c.world (phasesOf path key tr) (∃ e ∈ tr, isStore e) (written tr) ∧ NoLateZero tr := by
  refine (hrun.invariant (a := fun _ => .start) (P := fun _ => phases (path.take (keyPathLen-1)) key)
    (I := fun w tr => RaceInv w (phasesOf path key tr) (∃ e ∈ tr, isStore e) (written tr) ∧
      NoLateZero tr)
    ?_ (fun i => writer_follows _ path size _ key) ?_).1
  · have hstart : phasesOf path key ([] : Trace ι) = fun _ => .start := rfl
    refine ⟨?_,fun pre e hpre => by simp at hpre⟩
    rw [hstart]
    exact ⟨by simp [Phase.pastOpen],by simp [Phase.id?],by simp [Phase.base?],by simp,rfl,
      by simp [written]⟩
  · rintro w tr i c r w' ⟨inv,hlate⟩ hallows hserve hcond
    obtain ⟨hanswer,inv',hzero⟩ := inv.step hallows hserve hcond
    have hphases : phasesOf path key (tr ++ [⟨i,c,r⟩]) = Function.update (phasesOf path key tr) i
        ((phases (path.take (keyPathLen-1)) key).next (phasesOf path key tr i) c r) :=
      Program.after_snoc _
    have hstored : (∃ e ∈ tr ++ [⟨i,c,r⟩], isStore e) ↔ (∃ e ∈ tr, isStore e) ∨ isStore ⟨i,c,r⟩ := by
      simp [or_and_right,exists_or]
    rw [← hphases,← written_snoc,← propext hstored] at inv'
    exact ⟨hanswer,inv',hlate.snoc hzero⟩

/-- Condition: a process writes only while no process is between an `access` that missed the key
file and the end of its `memset`. Then no `memset` erases what another process wrote, and all that
was written stays. -/
theorem run_kept {shms : ι → Shm} {path : Path} {size : ℕ} {scripts : ι → ℕ → ℕ × ℕ} {key : ℤ}
    {tr : Trace ι} {c : Program.Config ι (ShmWorld ι) SysCall SysCall.Answer}
    (hrun : Program.Run (serve (path.take (keyPathLen-1)) key) (NoCreator path key)
      (processes shms path size scripts) tr c) : NoErasure tr ∧ Kept c.world tr := by
  obtain ⟨inv,hlate⟩ := run_invariant hrun
  exact ⟨hlate.noErasure,fun o v ho => (inv.last o v ho).2⟩

/-- One process creates the segment, and both write to it in turn. -/
def calmSchedule : Trace Bool :=
  [⟨true,.access ['k'],.error .ENOENT⟩,⟨true,.openCreate ['k'],.ok 3⟩,⟨true,.close 3,()⟩,
    ⟨true,.ftok ['k'] 1,.ok 7⟩,⟨true,.shmget 7 16 1023,.ok 0⟩,⟨true,.shmat 0,.ok 4096⟩,
    ⟨true,.zero 4096 16,()⟩,⟨false,.access ['k'],.ok ()⟩,⟨true,.store 4100 5,()⟩,
    ⟨false,.ftok ['k'] 1,.ok 7⟩,⟨false,.shmget 7 16 511,.ok 0⟩,⟨false,.shmat 0,.ok 8192⟩,
    ⟨false,.store 8196 6,()⟩]

theorem run_kept_calm : NoErasure calmSchedule ∧ ∃ w : ShmWorld Bool, Kept w calmSchedule ∧
    ∃ s, w.seg = some s ∧ s.mem 4 = 6 := by
  have hquiet (tr : Trace Bool) (e : Program.Event Bool SysCall SysCall.Answer)
      (he : isStore e = false) (w : ShmWorld Bool) : NoCreator ['k'] 7 w tr e :=
    fun h => absurd h (by simp [he])
  have hcond : Program.Complies (NoCreator ['k'] 7) [] calmSchedule :=
    ⟨hquiet _ _ rfl,hquiet _ _ rfl,hquiet _ _ rfl,hquiet _ _ rfl,hquiet _ _ rfl,hquiet _ _ rfl,
      hquiet _ _ rfl,hquiet _ _ rfl,fun _ _ => by decide,hquiet _ _ rfl,hquiet _ _ rfl,hquiet _ _ rfl,
      fun _ _ => by decide,trivial⟩
  obtain ⟨c,hc⟩ := Option.isSome_iff_exists.mp
    (show (Program.exec (serve ['k'] 7) (processes (fun _ => ⟨true,0,0,0,0,[]⟩) ['k'] 16
      fun i _ => (4,if i then 5 else 6)) calmSchedule).isSome by decide +kernel)
  have hrun : Program.Run (serve (List.take (keyPathLen-1) ['k']) 7) (NoCreator ['k'] 7) _ _ _ :=
    Program.Run.refl.exec hcond hc
  obtain ⟨herase,hkept⟩ := run_kept hrun
  exact ⟨herase,c.world,hkept,hkept 4 6 (by decide)⟩

/-- Two processes miss the key file; one clears the memory after the other has written to it. -/
def raceSchedule : Trace Bool :=
  [⟨false,.access ['k'],.error .ENOENT⟩,⟨true,.access ['k'],.error .ENOENT⟩,
    ⟨true,.openCreate ['k'],.ok 3⟩,⟨true,.close 3,()⟩,⟨true,.ftok ['k'] 1,.ok 7⟩,
    ⟨true,.shmget 7 16 1023,.ok 0⟩,⟨true,.shmat 0,.ok 4096⟩,⟨true,.zero 4096 16,()⟩,
    ⟨true,.store 4100 5,()⟩,⟨false,.openCreate ['k'],.ok 3⟩,⟨false,.close 3,()⟩,
    ⟨false,.ftok ['k'] 1,.ok 7⟩,⟨false,.shmget 7 16 1023,.ok 0⟩,⟨false,.shmat 0,.ok 8192⟩,
    ⟨false,.zero 8192 16,()⟩]

theorem run_kept_fails : ¬ ∀ (shms : Bool → Shm) (path : Path) (size : ℕ) (scripts : Bool → ℕ → ℕ × ℕ)
    (key : ℤ) (tr : Trace Bool) (c : Program.Config Bool (ShmWorld Bool) SysCall SysCall.Answer),
    Program.Run (serve (path.take (keyPathLen-1)) key) Program.anyCall
      (processes shms path size scripts)
      tr c → NoErasure tr ∧ Kept c.world tr := by
  intro h
  obtain ⟨c,hc⟩ := Option.isSome_iff_exists.mp
    (show (Program.exec (serve ['k'] 7) (processes (fun _ => ⟨true,0,0,0,0,[]⟩) ['k'] 16
      fun _ _ => (4,5)) raceSchedule).isSome by decide +kernel)
  have herase := (h _ ['k'] 16 _ 7 raceSchedule c
    (Program.Run.refl.exec (Program.complies_anyCall _) hc)).1
  have hsize := herase (raceSchedule.take 8) (raceSchedule.drop 9 |>.take 5)
    [] true false 4100 5 8192 16
    rfl (by decide) 4096 (by decide)
  exact absurd hsize (by decide)

end Shm
end LixRtos
