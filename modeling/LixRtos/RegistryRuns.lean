import LixRtos.Registry

/-! Runs of `omalloc` and `ofree`. The registry holds exactly what was obtained and not released. -/
namespace LixRtos

/-- `omalloc` with its description, which may be `NULL`. -/
def omallocDec (reg : Registry) (dec : Option (List Char)) (size : ℕ) : Sys (ℕ × Registry) :=
  match dec with
  | none => pure (0,reg)
  | some _ => omalloc reg size

namespace Registry

def blocks (reg : Registry) : List MemLog := reg.slots.filter fun log => log.addr ≠ 0

variable {reg : Registry} {a : List ℕ} {log : MemLog} {idx p size : ℕ}

theorem blocks_addr (reg : Registry) : reg.blocks.map MemLog.addr = reg.live := by
  rw [blocks,live,List.filter_map]
  rfl

theorem blocks_put (size : ℕ) (h : reg.slots[idx]? = some log) (hlog : log.addr = 0) (hp : p ≠ 0) :
    (reg.put idx ⟨p,size⟩).blocks.Perm (⟨p,size⟩ :: reg.blocks) :=
  filter_set_perm h (by simpa using hlog) (by simpa using hp)

theorem blocks_clear (h : reg.slots[idx]? = some log) (hlog : log.addr ≠ 0) :
    reg.blocks.Perm (log :: (reg.put idx ⟨0,0⟩).blocks) := by
  have hlt := (List.getElem?_eq_some_iff.mp h).1
  have hback : (reg.slots.set idx ⟨0,0⟩).set idx log = reg.slots := by
    rw [List.set_set]
    rw [← (List.getElem?_eq_some_iff.mp h).2,List.set_getElem_self]
  have hperm := filter_set_perm (p := fun log : MemLog => log.addr ≠ 0) (l := reg.slots.set idx ⟨0,0⟩)
    (List.getElem?_set_self hlt) (by simp) (by simpa using hlog)
  rwa [hback] at hperm

theorem full_iff : reg.live.length = memoryAllocateMaxTimes ↔ ∀ log ∈ reg.slots, log.addr ≠ 0 := by
  rw [← blocks_addr,List.length_map,← reg.length,blocks,List.length_filter_eq_length_iff]
  simp

/-- The four ways through `omalloc`. -/
theorem omallocDec_yields {dec : Option (List Char)}
    {tr : List (Program.Exchange SysCall SysCall.Answer)}
    {reg' : Registry} (h : (omallocDec reg dec size).Yields tr (p,reg')) :
    p = 0 ∧ reg' = reg ∧ tr = [] ∧
        (dec = none ∨ size = 0 ∨ reg.live.length = memoryAllocateMaxTimes) ∨
      ¬ (dec = none ∨ size = 0 ∨ reg.live.length = memoryAllocateMaxTimes) ∧ tr = [⟨.malloc size,p⟩] ∧
        (p = 0 ∧ reg' = reg ∨ p ≠ 0 ∧ ∃ idx log, reg.slots[idx]? = some log ∧ log.addr = 0 ∧
          reg' = reg.put idx ⟨p,size⟩) := by
  cases dec with
  | none =>
    cases h
    exact Or.inl ⟨rfl,rfl,rfl,Or.inl rfl⟩
  | some dec =>
    rw [omallocDec,omalloc] at h
    split at h
    · next hsize =>
      cases h
      exact Or.inl ⟨rfl,rfl,rfl,Or.inr (Or.inl hsize)⟩
    next hsize =>
    split at h
    · next hnone =>
      cases h
      exact Or.inl ⟨rfl,rfl,rfl,Or.inr (Or.inr (full_iff.mpr (full_of_find hnone)))⟩
    next idx hidx =>
    obtain ⟨log,hslot,hzero⟩ := find_free hidx
    have hroom : ¬ (some dec = none ∨ size = 0 ∨ reg.live.length = memoryAllocateMaxTimes) := by
      rintro (hdec | hzero' | hfull)
      · exact absurd hdec (by simp)
      · exact hsize hzero'
      · exact full_iff.mp hfull log (List.mem_of_getElem? hslot) hzero
    obtain ⟨space,tr',rfl,hrest⟩ := Program.Yields.of_call h
    refine Or.inr ⟨hroom,?_⟩
    rw [Program.ret_bind] at hrest
    split at hrest
    · next hspace =>
      obtain ⟨rfl,hres⟩ := hrest.of_ret
      obtain ⟨rfl,rfl⟩ := Prod.mk.inj hres
      exact ⟨by rw [hspace],Or.inl ⟨rfl,rfl⟩⟩
    · next hspace =>
      obtain ⟨rfl,hres⟩ := hrest.of_ret
      obtain ⟨rfl,rfl⟩ := Prod.mk.inj hres
      exact ⟨rfl,Or.inr ⟨hspace,idx,log,hslot,hzero,rfl⟩⟩

theorem ofree_yields {addr : ℕ} {ret : ℤ} {tr : List (Program.Exchange SysCall SysCall.Answer)}
    {reg' : Registry} (h : (ofree reg addr).Yields tr (ret,reg')) :
    addr ∈ reg.live ∧ ret = 0 ∧ tr = [⟨.free addr,()⟩] ∧ (∃ idx log, reg.slots[idx]? = some log ∧
        log.addr = addr ∧ reg' = reg.put idx ⟨0,0⟩) ∨
      addr ∉ reg.live ∧ ret = -1 ∧ tr = [] ∧ reg' = reg := by
  rw [ofree] at h
  split at h
  · next hzero =>
    obtain ⟨rfl,hres⟩ := h.of_ret
    obtain ⟨rfl,rfl⟩ := Prod.mk.inj hres
    exact Or.inr ⟨fun hlive => live_ne_zero hlive hzero,rfl,rfl,rfl⟩
  next hne =>
  split at h
  · next hnone =>
    obtain ⟨rfl,hres⟩ := h.of_ret
    obtain ⟨rfl,rfl⟩ := Prod.mk.inj hres
    exact Or.inr ⟨notMem_of_find hnone,rfl,rfl,rfl⟩
  · next idx hidx =>
    obtain ⟨_,tr',rfl,hrest⟩ := Program.Yields.of_call h
    obtain ⟨rfl,hres⟩ := Program.Yields.of_ret hrest
    obtain ⟨rfl,rfl⟩ := Prod.mk.inj hres
    obtain ⟨hlive,log,hslot,hlog⟩ := find_used hidx
    exact Or.inl ⟨hlive,rfl,rfl,idx,log,hslot,hlog,rfl⟩

/-- The runs of `omalloc` and `ofree` from the empty registry, with `a` allocated before: the calls
of the C library, and the blocks that `omalloc` gave and `ofree` did not take back. -/
inductive Run (a : List ℕ) : List (Program.Exchange SysCall SysCall.Answer) → List MemLog →
    Registry → Prop
  | nil : Run a [] [] empty
  | omalloc {tr tr' : List (Program.Exchange SysCall SysCall.Answer)} {held : List MemLog}
      {reg reg' : Registry} {p : ℕ} (dec : Option (List Char)) (size : ℕ) (hrun : Run a tr held reg)
      (hcall : (omallocDec reg dec size).Yields tr' (p,reg'))
      (hanswers : (libc True True).Accepts ((libc True True).final a tr) tr') :
      Run a (tr ++ tr') (if p = 0 then held else ⟨p,size⟩ :: held) reg'
  | ofree {tr tr' : List (Program.Exchange SysCall SysCall.Answer)} {held : List MemLog}
      {reg reg' : Registry} {ret : ℤ} (addr : ℕ) (hrun : Run a tr held reg)
      (hcall : (ofree reg addr).Yields tr' (ret,reg')) :
      Run a (tr ++ tr') (if ret = 0 then held.filter (·.addr ≠ addr) else held) reg'

variable {tr : List (Program.Exchange SysCall SysCall.Answer)} {held : List MemLog}

theorem Run.inv (hrun : Run a tr held reg) :
    reg.blocks.Perm held ∧ reg.Inv ((libc True True).final a tr) := by
  induction hrun with
  | nil => exact ⟨by simp [blocks,empty],Inv.empty a⟩
  | @omalloc tr tr' held reg reg' p dec size _ hcall hanswers ih =>
    obtain ⟨hblocks,hinv⟩ := ih
    rw [Program.Protocol.final_append]
    rcases omallocDec_yields hcall with ⟨rfl,rfl,rfl,_⟩ |
      ⟨_,rfl,⟨rfl,rfl⟩ | ⟨hp,idx,log,hslot,hlog,rfl⟩⟩
    · exact ⟨hblocks,hinv⟩
    · exact ⟨hblocks,hinv⟩
    · have hgrow := blocks_put size hslot hlog hp
      have hfresh : p ∉ (libc True True).final a tr := by
        rcases hanswers.1 with ⟨hzero,_⟩ | ⟨_,hfresh⟩
        · exact absurd hzero hp
        · exact hfresh
      have hlive : (reg.put idx ⟨p,size⟩).live.Perm (p :: reg.live) := by
        simpa [blocks_addr] using hgrow.map MemLog.addr
      rw [if_neg hp]
      refine ⟨hgrow.trans (hblocks.cons _),?_⟩
      have hfinal : (libc True True).final ((libc True True).final a tr) [⟨.malloc size,p⟩] =
          p :: (libc True True).final a tr := if_neg hp
      rw [hfinal]
      exact hinv.grow hfresh hlive
  | @ofree tr tr' held reg reg' ret addr _ hcall ih =>
    obtain ⟨hblocks,hinv⟩ := ih
    rw [Program.Protocol.final_append]
    rcases ofree_yields hcall with ⟨hlive,rfl,rfl,idx,log,hslot,rfl,rfl⟩ | ⟨_,rfl,rfl,rfl⟩
    · have hshrink := blocks_clear hslot (live_ne_zero hlive)
      have hperm : reg.live.Perm (log.addr :: (reg.put idx ⟨0,0⟩).live) := by
        simpa [blocks_addr] using hshrink.map MemLog.addr
      refine ⟨?_,hinv.shrink hperm⟩
      -- no other entry has this address
      have hrest : ∀ log' ∈ (reg.put idx ⟨0,0⟩).blocks, log'.addr ≠ log.addr := by
        intro log' hlog' heq
        have hnd := (hperm.nodup_iff.mp hinv.nodup)
        apply (List.nodup_cons.mp hnd).1
        rw [← heq,← blocks_addr]
        exact List.mem_map_of_mem hlog'
      have hfilter := (hshrink.symm.trans hblocks).filter fun log' => log'.addr ≠ log.addr
      rw [List.filter_cons_of_neg (by simp),List.filter_eq_self.mpr (by simpa using hrest)] at hfilter
      rw [if_pos rfl]
      exact hfilter
    · exact ⟨hblocks,hinv⟩

theorem omallocDec_loopFree (reg : Registry) (dec : Option (List Char)) (size : ℕ) :
    (omallocDec reg dec size).LoopFree := by
  cases dec with
  | none => trivial
  | some dec => exact omalloc_loopFree reg size

/-- After every run the entries in use are the blocks that `omalloc` gave and `ofree` did not take
back, with their sizes and no address twice. From there each call ends: `omalloc` fails exactly
without description or size, with a full registry or where `malloc` fails, and leaves the registry
as it is; `ofree` succeeds exactly for a registered address, frees it once and clears its entry, and
does nothing for another address. -/
theorem run_exact (hrun : Run a tr held reg) :
    reg.blocks.Perm held ∧ (held.map MemLog.addr).Nodup ∧
    (∀ dec size, Program.Ends Program.Protocol.free.logged (omallocDec reg dec size) ((),[]) fun s r =>
      (r.1 = 0 ↔ dec = none ∨ size = 0 ∨ held.length = memoryAllocateMaxTimes ∨
        (⟨.malloc size,(0 : ℕ)⟩ : Program.Exchange SysCall SysCall.Answer) ∈ s.2) ∧
      (r.1 = 0 → r.2 = reg)) ∧
    ∀ addr, Program.Ends Program.Protocol.free.logged (ofree reg addr) ((),[]) fun s r =>
      (r.1 = 0 ↔ addr ∈ held.map MemLog.addr) ∧
      (r.1 = 0 → s.2 = [⟨.free addr,()⟩] ∧ ∃ idx log, reg.slots[idx]? = some log ∧ log.addr = addr ∧
        r.2.slots = reg.slots.set idx ⟨0,0⟩) ∧
      (r.1 ≠ 0 → s.2 = [] ∧ r.2 = reg) := by
  obtain ⟨hblocks,hinv⟩ := hrun.inv
  have hlive : reg.live.Perm (held.map MemLog.addr) := by
    rw [← blocks_addr]
    exact hblocks.map MemLog.addr
  refine ⟨hblocks,hlive.nodup_iff.mp hinv.nodup,?_,?_⟩
  · intro dec size
    apply ((omallocDec_loopFree reg dec size).runs []).mono
    rintro ⟨_,seen⟩ ⟨p,reg'⟩ ⟨tr',hseen,hcall⟩
    obtain rfl : seen = tr' := hseen
    have hlength : held.length = reg.live.length := by rw [hlive.length_eq,List.length_map]
    rw [hlength]
    rcases omallocDec_yields hcall with ⟨rfl,rfl,rfl,hno⟩ | ⟨hyes,rfl,⟨rfl,rfl⟩ | ⟨hp,_⟩⟩
    · refine ⟨⟨fun _ => ?_,fun _ => rfl⟩,fun _ => rfl⟩
      rcases hno with h | h | h
      · exact Or.inl h
      · exact Or.inr (Or.inl h)
      · exact Or.inr (Or.inr (Or.inl h))
    · exact ⟨⟨fun _ => Or.inr (Or.inr (Or.inr List.mem_cons_self)),fun _ => rfl⟩,fun _ => rfl⟩
    · refine ⟨⟨fun hzero => absurd hzero hp,?_⟩,fun hzero => absurd hzero hp⟩
      rintro (h | h | h | h)
      · exact absurd (Or.inl h) hyes
      · exact absurd (Or.inr (Or.inl h)) hyes
      · exact absurd (Or.inr (Or.inr h)) hyes
      · simpa [eq_comm] using h
  · intro addr
    apply ((ofree_loopFree reg addr).runs []).mono
    rintro ⟨_,seen⟩ ⟨ret,reg'⟩ ⟨tr',hseen,hcall⟩
    obtain rfl : seen = tr' := hseen
    rw [← hlive.mem_iff]
    rcases ofree_yields hcall with ⟨hmem,rfl,rfl,idx,log,hslot,hlog,rfl⟩ | ⟨hmem,rfl,rfl,rfl⟩
    · exact ⟨⟨fun _ => hmem,fun _ => rfl⟩,fun _ => ⟨rfl,idx,log,hslot,hlog,rfl⟩,fun h => absurd rfl h⟩
    · exact ⟨⟨fun h => absurd h (by simp),fun h => absurd h hmem⟩,fun h => absurd h (by simp),
        fun _ => ⟨rfl,rfl⟩⟩

/-- A block is obtained, released and obtained again, while another release fails. -/
theorem run_exact_sample : ∃ tr held reg, Run [500] tr held reg ∧ held = [⟨2000,8⟩] ∧
    reg.blocks.Perm held := by
  have h₁ := (Run.nil (a := [500])).omalloc (some ['a']) 40
    (Program.replay_yields (rfl : Program.replay 9 _ [⟨.malloc 40,(2000 : ℕ)⟩] = some (_,_)))
    (by exact ⟨Or.inr ⟨by decide,by decide⟩,trivial⟩)
  have h₂ := h₁.ofree 500 (Program.replay_yields (rfl : Program.replay 9 _ [] = some (_,_)))
  have h₃ := h₂.ofree 2000
    (Program.replay_yields (rfl : Program.replay 9 _ [⟨.free 2000,()⟩] = some (_,_)))
  have h₄ := h₃.omalloc (some ['b']) 8
    (Program.replay_yields (rfl : Program.replay 9 _ [⟨.malloc 8,(2000 : ℕ)⟩] = some (_,_)))
    (by exact ⟨Or.inr ⟨by decide,by decide⟩,trivial⟩)
  exact ⟨_,_,_,h₄,rfl,(run_exact h₄).1⟩

end Registry
end LixRtos
