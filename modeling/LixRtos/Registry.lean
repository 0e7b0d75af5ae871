import LixRtos.SystemCalls
import Mathlib.Data.Fintype.EquivFin

/-! The allocation registry of `linux/src/mem.c`. Addresses are numbers and 0 is `NULL`. -/
namespace LixRtos

/-- An entry of `mem_manager`, without its description. -/
structure MemLog where
  addr : ℕ
  size : ℕ
  deriving DecidableEq

def memoryAllocateMaxTimes : ℕ := 200

structure Registry where
  slots : List MemLog
  length : slots.length = memoryAllocateMaxTimes

namespace Registry

def empty : Registry := ⟨List.replicate memoryAllocateMaxTimes ⟨0,0⟩,List.length_replicate⟩

def put (reg : Registry) (idx : ℕ) (log : MemLog) : Registry :=
  ⟨reg.slots.set idx log,by rw [List.length_set,reg.length]⟩

def live (reg : Registry) : List ℕ := (reg.slots.map MemLog.addr).filter (· ≠ 0)

end Registry

def omalloc (reg : Registry) (size : ℕ) : Sys (ℕ × Registry) :=
  if size = 0 then pure (0,reg)
  else
    match reg.slots.findIdx? fun log => log.addr = 0 with
    | none => pure (0,reg)
    | some idx => do
      let space ← Sys.request (.malloc size)
      if space = 0 then pure (0,reg) else pure (space,reg.put idx ⟨space,size⟩)

def ofree (reg : Registry) (addr : ℕ) : Sys (ℤ × Registry) :=
  if addr = 0 then pure (-1,reg)
  else
    match reg.slots.findIdx? fun log => log.addr ≠ 0 ∧ log.addr = addr with
    | none => pure (-1,reg)
    | some idx => do
      Sys.request (.free addr)
      pure (0,reg.put idx ⟨0,0⟩)

theorem omalloc_loopFree (reg : Registry) (size : ℕ) : (omalloc reg size).LoopFree := by
  unfold omalloc
  split
  · trivial
  · split
    · trivial
    · refine Program.LoopFree.bind (fun _ => trivial) fun space => ?_
      split <;> trivial

theorem ofree_loopFree (reg : Registry) (addr : ℕ) : (ofree reg addr).LoopFree := by
  unfold ofree
  split
  · trivial
  · split
    · trivial
    · exact Program.LoopFree.bind (fun _ => trivial) fun _ => trivial

/-- The state is the list of allocated addresses: `malloc` gives a new one or, if it may fail,
`NULL`, and only what is allocated can be freed and, if nothing may dangle, accessed. -/
def libc (mayFail mayDangle : Prop) : Program.Protocol SysCall SysCall.Answer (List ℕ) where
  allows
    | a, .free p => p ∈ a
    | _, .stale _ => mayDangle
    | _, .fault => mayDangle
    | _, _ => True
  answers
    | a, .malloc _, p => p = 0 ∧ mayFail ∨ p ≠ 0 ∧ p ∉ a
    | _, _, _ => True
  next
    | a, .malloc _, p => if p = 0 then a else p :: a
    | a, .free p, _ => a.erase p
    | a, _, _ => a

namespace Registry

/-- Registered addresses are distinct and allocated. -/
structure Inv (reg : Registry) (a : List ℕ) : Prop where
  nodup : reg.live.Nodup
  allocated : ∀ p ∈ reg.live, p ∈ a

variable {reg : Registry} {a : List ℕ}

theorem empty_live : empty.live = [] := by decide +kernel

theorem Inv.empty (a : List ℕ) : Registry.empty.Inv a :=
  ⟨by simp [empty_live],by simp [empty_live]⟩

theorem live_ne_zero {p : ℕ} (h : p ∈ reg.live) : p ≠ 0 := by
  simpa using (List.mem_filter.mp h).2

theorem find_free {idx : ℕ} (h : (reg.slots.findIdx? fun log => log.addr = 0) = some idx) :
    ∃ log, reg.slots[idx]? = some log ∧ log.addr = 0 := by
  obtain ⟨hlt,hzero,_⟩ := List.findIdx?_eq_some_iff_getElem.mp h
  exact ⟨_,List.getElem?_eq_getElem hlt,by simpa using hzero⟩

theorem full_of_find (h : (reg.slots.findIdx? fun log => log.addr = 0) = none) :
    ∀ log ∈ reg.slots, log.addr ≠ 0 :=
  fun log hlog => by simpa using List.findIdx?_eq_none_iff.mp h log hlog

theorem find_used {p idx : ℕ}
    (h : (reg.slots.findIdx? fun log => log.addr ≠ 0 ∧ log.addr = p) = some idx) :
    p ∈ reg.live ∧ ∃ log, reg.slots[idx]? = some log ∧ log.addr = p := by
  obtain ⟨hlt,haddr,_⟩ := List.findIdx?_eq_some_iff_getElem.mp h
  simp only [ne_eq,decide_eq_true_eq] at haddr
  refine ⟨?_,_,List.getElem?_eq_getElem hlt,haddr.2⟩
  rw [live,List.mem_filter]
  exact ⟨List.mem_map.mpr ⟨_,List.getElem_mem hlt,haddr.2⟩,by simpa [← haddr.2] using haddr.1⟩

theorem notMem_of_find {p : ℕ}
    (h : (reg.slots.findIdx? fun log => log.addr ≠ 0 ∧ log.addr = p) = none) :
    p ∉ reg.live := by
  intro hlive
  obtain ⟨log,hlog,rfl⟩ := List.mem_map.mp (List.mem_filter.mp hlive).1
  simpa [live_ne_zero hlive] using List.findIdx?_eq_none_iff.mp h log hlog

theorem filter_set_perm {α : Type} {p : α → Bool} {l : List α} {i : ℕ} {x y : α} (h : l[i]? = some x)
    (hx : ¬ p x) (hy : p y) : ((l.set i y).filter p).Perm (y :: l.filter p) := by
  induction l generalizing i with
  | nil => simp at h
  | cons z l ih =>
    cases i with
    | zero =>
      obtain rfl : z = x := by simpa using h
      simp [hx,hy]
    | succ i =>
      have hl := ih (by simpa using h)
      by_cases hz : p z
      · simpa [hz] using (hl.cons z).trans (.swap y z _)
      · simpa [hz] using hl

theorem live_put {idx : ℕ} {p size : ℕ} (h : (reg.slots.map MemLog.addr)[idx]? = some 0)
    (hp : p ≠ 0) : (reg.put idx ⟨p,size⟩).live.Perm (p :: reg.live) := by
  simpa only [live,put,List.map_set] using filter_set_perm h (by simp) (by simpa using hp)

theorem live_clear {idx : ℕ} {p : ℕ} (h : (reg.slots.map MemLog.addr)[idx]? = some p)
    (hp : p ≠ 0) : reg.live.Perm (p :: (reg.put idx ⟨0,0⟩).live) := by
  obtain ⟨hlt,hget⟩ := List.getElem?_eq_some_iff.mp h
  have hback : ((reg.slots.map MemLog.addr).set idx 0).set idx p = reg.slots.map MemLog.addr := by
    rw [List.set_set,← hget,List.set_getElem_self]
  have hperm := filter_set_perm (p := fun x => x ≠ 0)
    (l := (reg.slots.map MemLog.addr).set idx 0) (i := idx)
    (List.getElem?_set_self hlt) (by simp) (by simpa using hp)
  rw [hback] at hperm
  simpa only [live,put,List.map_set] using hperm

end Registry

variable {reg : Registry} {a : List ℕ} {mayFail mayDangle : Prop}

/-- `omalloc` fails if all slots are taken; else it registers what `malloc` gives. -/
theorem omalloc_cases {size : ℕ} (hsize : size ≠ 0) :
    omalloc reg size = .ret (0,reg) ∧ reg.live.length = memoryAllocateMaxTimes ∨
      ∃ grown : ℕ → Registry, (∀ p, p ≠ 0 → (grown p).live.Perm (p :: reg.live)) ∧
        omalloc reg size = (Sys.request (.malloc size)).bind fun p : ℕ =>
          if p = 0 then .ret (0,reg) else .ret (p,grown p) := by
  rw [omalloc,if_neg hsize]
  split
  · next hnone =>
    refine Or.inl ⟨rfl,?_⟩
    rw [Registry.live,List.filter_eq_self.mpr,List.length_map,reg.length]
    intro x hx
    obtain ⟨log,hlog,rfl⟩ := List.mem_map.mp hx
    simpa using Registry.full_of_find hnone log hlog
  · next idx hidx =>
    obtain ⟨log,hslot,hzero⟩ := Registry.find_free hidx
    refine Or.inr ⟨fun p => reg.put idx ⟨p,size⟩,fun p hp => Registry.live_put ?_ hp,rfl⟩
    rw [List.getElem?_map,hslot,Option.map_some,hzero]

theorem omalloc_follows {size : ℕ} (hsize : size ≠ 0) :
    (omalloc reg size).Follows (libc mayFail mayDangle) a fun a' r =>
      r = (0,reg) ∧ a' = a ∧ (mayFail ∨ reg.live.length = memoryAllocateMaxTimes) ∨
      r.1 ≠ 0 ∧ r.1 ∉ a ∧ a' = r.1 :: a ∧ r.2.live.Perm (r.1 :: reg.live) := by
  rcases @omalloc_cases reg size hsize with ⟨hret,hfull⟩ | ⟨grown,hgrown,hcall⟩
  · rw [hret]
    exact Or.inl ⟨rfl,rfl,Or.inr hfull⟩
  · rw [hcall]
    refine Program.Follows.bind (Program.Follows.perform trivial ?_)
    rintro p (⟨rfl,hfail⟩ | ⟨hp,hfresh⟩)
    · exact Or.inl ⟨rfl,rfl,Or.inl hfail⟩
    · rw [if_neg hp]
      exact Or.inr ⟨hp,hfresh,if_neg hp,hgrown p hp⟩

theorem ofree_registered {p : ℕ} (hp : p ∈ reg.live) : ∃ rest : Registry,
    reg.live.Perm (p :: rest.live) ∧
      ofree reg p = (Sys.request (.free p)).bind fun _ => .ret (0,rest) := by
  have hne := Registry.live_ne_zero hp
  rw [ofree,if_neg hne]
  split
  · next hnone => exact absurd hp (Registry.notMem_of_find hnone)
  · next idx hidx =>
    obtain ⟨-,log,hslot,hlog⟩ := Registry.find_used hidx
    refine ⟨reg.put idx ⟨0,0⟩,Registry.live_clear ?_ hne,rfl⟩
    rw [List.getElem?_map,hslot,Option.map_some,hlog]

theorem ofree_unregistered {p : ℕ} (hp : p ∉ reg.live) : ofree reg p = .ret (-1,reg) := by
  rw [ofree]
  split
  · rfl
  · split
    · rfl
    · next idx hidx => exact absurd (Registry.find_used hidx).1 hp

theorem ofree_follows (inv : reg.Inv a) {p : ℕ} (hp : p ∈ reg.live) :
    (ofree reg p).Follows (libc mayFail mayDangle) a fun a' r =>
      r.1 = 0 ∧ a' = a.erase p ∧ reg.live.Perm (p :: r.2.live) := by
  obtain ⟨rest,hperm,hcall⟩ := ofree_registered hp
  rw [hcall]
  exact Program.Follows.bind (Program.Follows.perform (inv.allocated p hp) fun _ _ => ⟨rfl,rfl,hperm⟩)

theorem Registry.Inv.grow {reg' : Registry} (inv : reg.Inv a) {p : ℕ} (hp : p ∉ a)
    (hperm : reg'.live.Perm (p :: reg.live)) : reg'.Inv (p :: a) where
  nodup := hperm.nodup_iff.mpr (List.nodup_cons.mpr ⟨fun h => hp (inv.allocated p h),inv.nodup⟩)
  allocated q hq := by
    rcases List.mem_cons.mp (hperm.mem_iff.mp hq) with rfl | hq
    · exact List.mem_cons_self
    · exact List.mem_cons_of_mem _ (inv.allocated q hq)

theorem Registry.Inv.shrink {reg' : Registry} (inv : reg.Inv a) {p : ℕ}
    (hperm : reg.live.Perm (p :: reg'.live)) : reg'.Inv (a.erase p) := by
  have hnd := List.nodup_cons.mp (hperm.nodup_iff.mp inv.nodup)
  refine ⟨hnd.2,fun q hq => ?_⟩
  have hne : q ≠ p := fun h => hnd.1 (h ▸ hq)
  exact (List.mem_erase_of_ne hne).mpr (inv.allocated q (hperm.mem_iff.mpr (by simp [hq])))

theorem libc_accepts_iff {mayDangle' : Prop} {tr : List (Program.Exchange SysCall SysCall.Answer)} :
    (libc mayFail mayDangle).Accepts a tr ↔ (libc mayFail mayDangle').Accepts a tr := by
  induction tr generalizing a with
  | nil => exact Iff.rfl
  | cons e tr ih => exact and_congr Iff.rfl ih

def obtained (tr : List (Program.Exchange SysCall SysCall.Answer)) : List ℕ :=
  tr.filterMap fun
    | ⟨.malloc _,p⟩ => if p = 0 then none else some p
    | _ => none

def released (tr : List (Program.Exchange SysCall SysCall.Answer)) : List ℕ :=
  tr.filterMap fun
    | ⟨.free p,_⟩ => some p
    | _ => none

theorem libc_balance {tr : List (Program.Exchange SysCall SysCall.Answer)}
    (h : (libc mayFail mayDangle).Permits a tr) (p : ℕ) :
    ((libc mayFail mayDangle).final a tr).count p + (released tr).count p = a.count p +
    (obtained tr).count p := by
  induction tr generalizing a with
  | nil => rfl
  | cons e tr ih =>
    obtain ⟨c,r⟩ := e
    have hrest := ih h.2
    cases c with
    | malloc size =>
      by_cases hr : r = 0
      · simpa [Program.Protocol.final,libc,released,obtained,hr] using hrest
      · simp only [Program.Protocol.final,libc,released,obtained,if_neg hr] at hrest ⊢
        simp only [List.filterMap_cons,if_neg hr,List.count_cons] at hrest ⊢
        omega
    | free q =>
      have hq : q ∈ a := h.1
      have herase := (List.perm_cons_erase hq).count_eq p
      simp only [Program.Protocol.final,libc,released,obtained] at hrest ⊢
      simp only [List.filterMap_cons,List.count_cons] at hrest herase ⊢
      omega
    | _ => exact hrest

theorem exists_fresh (a : List ℕ) : ∃ p, p ≠ 0 ∧ p ∉ a := by
  obtain ⟨p,hp⟩ := Infinite.exists_notMem_finset (0 :: a).toFinset
  simp only [List.toFinset_cons,Finset.mem_insert,List.mem_toFinset,not_or] at hp
  exact ⟨p,hp⟩

theorem libc_answers (a : List ℕ) (c : SysCall) (hc : (libc mayFail False).allows a c) :
    ∃ r, (libc mayFail False).answers a c r := by
  cases c with
  | malloc size =>
    obtain ⟨p,hp⟩ := exists_fresh a
    exact ⟨p,Or.inr hp⟩
  | fault => exact hc.elim
  | _ => exact (SysCall.nonempty_answer (by simp)).elim fun r => ⟨r,trivial⟩

theorem Registry.live_length_le (reg : Registry) : reg.live.length ≤ memoryAllocateMaxTimes := by
  rw [live,← reg.length]
  exact (List.length_filter_le _ _).trans (List.length_map _).le

end LixRtos
