import LixRtos.MsgQLoops
import LixRtos.Ring
import Mathlib.Data.List.Perm.Subperm

/-! The ring of event clients: what the functions that walk it and link and unlink its nodes do,
under any protocol. -/
namespace LixRtos
namespace MsgQSrv

def nextOf (srv : MsgQSrv) (p : ℕ) : ℕ := (srv.nodes p).next

def prevOf (srv : MsgQSrv) (p : ℕ) : ℕ := (srv.nodes p).prev

def qidOf (srv : MsgQSrv) (p : ℕ) : ℤ := (srv.nodes p).qid

/-- `head` and the nodes `xs` are linked to a ring, and all of them may be accessed. -/
structure Linked (srv : MsgQSrv) (xs : List ℕ) : Prop where
  ring : Ring srv.nextOf srv.prevOf srv.head xs
  head_ne : srv.head ≠ 0
  live : ∀ p ∈ xs, p ∈ srv.reg.live

variable {srv : MsgQSrv} {xs ys zs : List ℕ} {p v : ℕ}

def withNode (srv : MsgQSrv) (p : ℕ) (n : MsgQEveClt) : MsgQSrv :=
  { srv with nodes := Function.update srv.nodes p n }

def withNext (srv : MsgQSrv) (p v : ℕ) : MsgQSrv := srv.withNode p { srv.nodes p with next := v }

def withPrev (srv : MsgQSrv) (p v : ℕ) : MsgQSrv := srv.withNode p { srv.nodes p with prev := v }

@[simp] theorem withNode_nextOf (srv : MsgQSrv) (p : ℕ) (n : MsgQEveClt) :
    (srv.withNode p n).nextOf = Function.update srv.nextOf p n.next := by
  funext q
  by_cases hq : q = p <;> simp [nextOf,withNode,hq]

@[simp] theorem withNode_prevOf (srv : MsgQSrv) (p : ℕ) (n : MsgQEveClt) :
    (srv.withNode p n).prevOf = Function.update srv.prevOf p n.prev := by
  funext q
  by_cases hq : q = p <;> simp [prevOf,withNode,hq]

@[simp] theorem withNode_qidOf (srv : MsgQSrv) (p : ℕ) (n : MsgQEveClt) :
    (srv.withNode p n).qidOf = Function.update srv.qidOf p n.qid := by
  funext q
  by_cases hq : q = p <;> simp [qidOf,withNode,hq]

@[simp] theorem withNext_nextOf (srv : MsgQSrv) (p v : ℕ) :
    (srv.withNext p v).nextOf = Function.update srv.nextOf p v := withNode_nextOf ..

@[simp] theorem withNext_prevOf (srv : MsgQSrv) (p v : ℕ) : (srv.withNext p v).prevOf = srv.prevOf :=
  (withNode_prevOf ..).trans (Function.update_eq_self p srv.prevOf)

@[simp] theorem withNext_qidOf (srv : MsgQSrv) (p v : ℕ) : (srv.withNext p v).qidOf = srv.qidOf :=
  (withNode_qidOf ..).trans (Function.update_eq_self p srv.qidOf)

@[simp] theorem withPrev_nextOf (srv : MsgQSrv) (p v : ℕ) : (srv.withPrev p v).nextOf = srv.nextOf :=
  (withNode_nextOf ..).trans (Function.update_eq_self p srv.nextOf)

@[simp] theorem withPrev_prevOf (srv : MsgQSrv) (p v : ℕ) :
    (srv.withPrev p v).prevOf = Function.update srv.prevOf p v := withNode_prevOf ..

@[simp] theorem withPrev_qidOf (srv : MsgQSrv) (p v : ℕ) : (srv.withPrev p v).qidOf = srv.qidOf :=
  (withNode_qidOf ..).trans (Function.update_eq_self p srv.qidOf)

@[simp] theorem withNext_head (srv : MsgQSrv) (p v : ℕ) : (srv.withNext p v).head = srv.head := rfl

@[simp] theorem withPrev_head (srv : MsgQSrv) (p v : ℕ) : (srv.withPrev p v).head = srv.head := rfl

theorem loadNext_eq (hp : p ≠ 0) (h : srv.Valid p) : srv.loadNext p = .ret (srv.nextOf p) := by
  rw [loadNext,if_neg hp,if_pos h]
  rfl

theorem loadPrev_eq (hp : p ≠ 0) (h : srv.Valid p) : srv.loadPrev p = .ret (srv.prevOf p) := by
  rw [loadPrev,if_neg hp,if_pos h]
  rfl

theorem loadQid_eq (hp : p ≠ 0) (h : srv.Valid p) : srv.loadQid p = .ret (srv.qidOf p) := by
  rw [loadQid,if_neg hp,if_pos h]
  rfl

theorem store_eq (f : MsgQEveClt → MsgQEveClt) (hp : p ≠ 0) (h : srv.Valid p) :
    srv.store p f = .ret (srv.withNode p (f (srv.nodes p))) := by
  rw [store,if_neg hp,if_pos h]
  rfl

theorem setNext_eq (hp : p ≠ 0) (h : srv.Valid p) : srv.setNext p v = .ret (srv.withNext p v) :=
  store_eq _ hp h

theorem setPrev_eq (hp : p ≠ 0) (h : srv.Valid p) : srv.setPrev p v = .ret (srv.withPrev p v) :=
  store_eq _ hp h

namespace Linked

theorem ne_zero (h : srv.Linked xs) (hp : p ∈ srv.head :: xs) : p ≠ 0 := by
  rcases List.mem_cons.mp hp with rfl | hp
  · exact h.head_ne
  · exact Registry.live_ne_zero (h.live p hp)

theorem valid (h : srv.Linked xs) (hp : p ∈ srv.head :: xs) : srv.Valid p :=
  (List.mem_cons.mp hp).imp_right (h.live p)

theorem head_notMem (h : srv.Linked xs) : srv.head ∉ xs := (List.nodup_cons.mp h.ring.nodup).1

theorem nodup (h : srv.Linked xs) : xs.Nodup := (List.nodup_cons.mp h.ring.nodup).2

end Linked

variable {A : Type} {P : Program.Protocol SysCall SysCall.Answer A} {a : A}

theorem Linked.walk {β : Type} {body : ℕ → Sys (ℕ ⊕ β)} {post : A → β → Prop} (hit : ℕ → Prop)
    (h : srv.Linked xs) (hhead : (∀ q ∈ xs, ¬ hit q) → ∃ b, body srv.head = .ret (.inr b) ∧ post a b)
    (hnode : ∀ q ∈ xs, hit q ∧ (∃ b, body q = .ret (.inr b) ∧ post a b) ∨
      ¬ hit q ∧ body q = .ret (.inl (srv.nextOf q))) :
    Program.Ends P (Program.iterate body (srv.nextOf srv.head)) a post := by
  have hrest (ys zs : List ℕ) (hxs : xs = ys ++ zs) (hys : ∀ q ∈ ys, ¬ hit q) :
      Program.Ends P (Program.iterate body (zs.head?.getD srv.head)) a post := by
    induction zs generalizing ys with
    | nil =>
      obtain ⟨b,hb,hpost⟩ := hhead (by simpa [hxs] using hys)
      apply Program.Ends.iterate
      rw [List.head?_nil,Option.getD_none,hb]
      exact .ret (.ret hpost)
    | cons q zs ih =>
      apply Program.Ends.iterate
      rw [List.head?_cons,Option.getD_some]
      rcases hnode q (by simp [hxs]) with ⟨_,b,hb,hpost⟩ | ⟨hmiss,hgo⟩
      · rw [hb]
        exact .ret (.ret hpost)
      · have hring := h.ring
        rw [hxs] at hring
        have hnext : srv.nextOf q = zs.head?.getD srv.head := hring.links.2.1
        rw [hgo,hnext]
        refine .ret (ih (ys ++ [q]) (by simp [hxs]) fun y hy => ?_)
        rcases List.mem_append.mp hy with hy | hy
        · exact hys y hy
        · rwa [List.mem_singleton.mp hy]
  rw [h.ring.ends.1]
  exact hrest [] xs rfl fun q hq => absurd hq List.not_mem_nil

theorem find_ends (h : srv.Linked xs) (qid : ℤ) : Program.Ends P (srv.find qid) a fun a' p =>
    a' = a ∧ (p = srv.head ∧ (∀ q ∈ xs, srv.qidOf q ≠ qid) ∨ p ∈ xs ∧ srv.qidOf p = qid) := by
  rw [find,loadNext_eq h.head_ne (h.valid List.mem_cons_self)]
  refine h.walk (fun q => srv.qidOf q = qid) ?_ ?_
  · intro hall
    exact ⟨srv.head,if_pos rfl,rfl,Or.inl ⟨rfl,hall⟩⟩
  · intro q hq
    have hmem := List.mem_cons_of_mem srv.head hq
    have hne : q ≠ srv.head := fun hqh => h.head_notMem (hqh ▸ hq)
    rw [if_neg hne,loadQid_eq (h.ne_zero hmem) (h.valid hmem),
      loadNext_eq (h.ne_zero hmem) (h.valid hmem)]
    by_cases hqid : srv.qidOf q = qid
    · exact Or.inl ⟨hqid,q,if_pos hqid,rfl,Or.inr ⟨hq,hqid⟩⟩
    · exact Or.inr ⟨hqid,if_neg hqid⟩

theorem del_ends {post : A → ℤ × MsgQSrv → Prop} (h : srv.Linked xs)
    (hmember : p ∈ xs → Program.Ends P (srv.unlink p) a post) (hother : p ∉ xs → post a (-1,srv)) :
    Program.Ends P (srv.del p) a post := by
  rw [del]
  split
  · next hzero =>
    exact .ret (hother fun hp => h.ne_zero (List.mem_cons_of_mem _ hp) hzero)
  split
  · next hhead =>
    exact .ret (hother fun hp => h.head_notMem (hhead ▸ hp))
  rw [loadNext_eq h.head_ne (h.valid List.mem_cons_self),Program.bind_eq,Program.ret_bind]
  refine Program.Ends.bind (h.walk (fun q => q = p) ?_ ?_)
  · intro hall
    exact ⟨false,if_pos rfl,.ret (hother fun hp => hall p hp rfl)⟩
  · intro q hq
    have hmem := List.mem_cons_of_mem srv.head hq
    have hne : q ≠ srv.head := fun hqh => h.head_notMem (hqh ▸ hq)
    rw [if_neg hne,loadNext_eq (h.ne_zero hmem) (h.valid hmem)]
    by_cases hqp : q = p
    · exact Or.inl ⟨hqp,true,if_pos hqp,hmember (hqp ▸ hq)⟩
    · exact Or.inr ⟨hqp,if_neg hqp⟩

def appended (srv : MsgQSrv) (clt : ℕ) : MsgQSrv :=
  let last := srv.prevOf srv.head
  let srv' := (((srv.withPrev clt last).withNext clt srv.head).withNext last clt).withPrev srv.head clt
  { srv' with cltAmt := toInt (srv.cltAmt + 1) }

theorem appended_nextOf (srv : MsgQSrv) (clt : ℕ) : (srv.appended clt).nextOf =
    Function.update (Function.update srv.nextOf clt srv.head) (srv.prevOf srv.head) clt := by
  have h : (srv.appended clt).nextOf = ((((srv.withPrev clt (srv.prevOf srv.head)).withNext clt
    srv.head).withNext (srv.prevOf srv.head) clt).withPrev srv.head clt).nextOf := rfl
  simp [h]

theorem appended_prevOf (srv : MsgQSrv) (clt : ℕ) : (srv.appended clt).prevOf =
    Function.update (Function.update srv.prevOf clt (srv.prevOf srv.head)) srv.head clt := by
  have h : (srv.appended clt).prevOf = ((((srv.withPrev clt (srv.prevOf srv.head)).withNext clt
    srv.head).withNext (srv.prevOf srv.head) clt).withPrev srv.head clt).prevOf := rfl
  simp [h]

@[simp] theorem appended_qidOf (srv : MsgQSrv) (clt : ℕ) : (srv.appended clt).qidOf = srv.qidOf := by
  have h : (srv.appended clt).qidOf = ((((srv.withPrev clt (srv.prevOf srv.head)).withNext clt
    srv.head).withNext (srv.prevOf srv.head) clt).withPrev srv.head clt).qidOf := rfl
  simp [h]

theorem add_eq (h : srv.Linked xs) (hp : p ∈ srv.reg.live) (hnew : p ∉ srv.head :: xs) :
    srv.add p = .ret (0,srv.appended p) := by
  have hne : p ≠ srv.head := fun hph => hnew (hph ▸ List.mem_cons_self)
  have hp0 : p ≠ 0 := Registry.live_ne_zero hp
  have hlast : srv.prevOf srv.head ∈ srv.head :: xs := by
    rw [h.ring.ends.2]
    exact Ring.last_mem _ _
  let srv₁ := srv.withPrev p (srv.prevOf srv.head)
  let srv₂ := srv₁.withNext p srv.head
  let srv₃ := srv₂.withNext (srv.prevOf srv.head) p
  have h₀ : srv.loadPrev srv.head = .ret (srv.prevOf srv.head) := loadPrev_eq h.head_ne (Or.inl rfl)
  have h₁ : srv.setPrev p (srv.prevOf srv.head) = .ret srv₁ := setPrev_eq hp0 (Or.inr hp)
  have h₂ : srv₁.setNext p srv₁.head = .ret srv₂ := setNext_eq hp0 (Or.inr hp)
  have hback : srv₂.prevOf srv.head = srv.prevOf srv.head := by
    simp [srv₂,srv₁,Function.update_of_ne hne.symm]
  have hvalid : srv₂.Valid srv₂.head := Or.inl rfl
  have h₃ : srv₂.loadPrev srv₂.head = .ret (srv.prevOf srv.head) :=
    (loadPrev_eq h.head_ne hvalid).trans (congrArg Program.ret hback)
  have h₄ : srv₂.setNext (srv.prevOf srv.head) p = .ret srv₃ :=
    setNext_eq (h.ne_zero hlast) (h.valid hlast)
  have h₅ : srv₃.setPrev srv₃.head p = .ret (srv₃.withPrev srv.head p) :=
    setPrev_eq h.head_ne (Or.inl rfl)
  rw [add,if_neg hp0,if_neg hne]
  simp only [Program.bind_eq,Program.ret_bind,h₀,h₁,h₂,h₃,h₄,h₅]
  rfl

theorem Linked.appended (h : srv.Linked xs) (hp : p ∈ srv.reg.live) (hnew : p ∉ srv.head :: xs) :
    (srv.appended p).Linked (xs ++ [p]) := by
  have hne (q : ℕ) (hq : q ∈ srv.head :: xs) : q ≠ p := fun hqp => hnew (hqp ▸ hq)
  have hring : Ring srv.nextOf srv.prevOf srv.head (xs ++ []) := by rw [List.append_nil]; exact h.ring
  have hlast : xs.getLast?.getD srv.head = srv.prevOf srv.head := h.ring.ends.2.symm
  have hlastne : srv.prevOf srv.head ≠ p := hlast ▸ hne _ (Ring.last_mem srv.head xs)
  refine ⟨?_,h.head_ne,?_⟩
  · refine hring.insert (by rwa [List.append_nil]) ?_ ?_ ?_ ?_
    · rw [hlast,appended_nextOf,appended_prevOf]
      refine ⟨Function.update_self ..,?_⟩
      rw [Function.update_of_ne (hne srv.head List.mem_cons_self).symm,Function.update_self]
    · rw [List.head?_nil,Option.getD_none,appended_nextOf,appended_prevOf]
      refine ⟨?_,Function.update_self ..⟩
      rw [Function.update_of_ne hlastne.symm,Function.update_self]
    · intro y hy hyl
      rw [List.append_nil] at hy
      rw [hlast] at hyl
      rw [appended_nextOf,Function.update_of_ne hyl,Function.update_of_ne (hne y hy)]
    · intro y hy hyh
      rw [List.append_nil] at hy
      rw [List.head?_nil,Option.getD_none] at hyh
      rw [appended_prevOf,Function.update_of_ne hyh,Function.update_of_ne (hne y hy)]
  · intro q hq
    rcases List.mem_append.mp hq with hq | hq
    · exact h.live q hq
    · rwa [List.mem_singleton.mp hq]

def unlinked (srv : MsgQSrv) (client : ℕ) (rest : Registry) : MsgQSrv :=
  let srv' := (srv.withNext (srv.prevOf client) (srv.nextOf client)).withPrev (srv.nextOf client)
    (srv.prevOf client)
  { srv' with cltAmt := toInt (srv.cltAmt - 1), reg := rest }

theorem unlinked_nextOf (srv : MsgQSrv) (clt : ℕ) (rest : Registry) : (srv.unlinked clt rest).nextOf =
    Function.update srv.nextOf (srv.prevOf clt) (srv.nextOf clt) := by
  have h : (srv.unlinked clt rest).nextOf = ((srv.withNext (srv.prevOf clt) (srv.nextOf clt)).withPrev
    (srv.nextOf clt) (srv.prevOf clt)).nextOf := rfl
  simp [h]

theorem unlinked_prevOf (srv : MsgQSrv) (clt : ℕ) (rest : Registry) : (srv.unlinked clt rest).prevOf =
    Function.update srv.prevOf (srv.nextOf clt) (srv.prevOf clt) := by
  have h : (srv.unlinked clt rest).prevOf = ((srv.withNext (srv.prevOf clt) (srv.nextOf clt)).withPrev
    (srv.nextOf clt) (srv.prevOf clt)).prevOf := rfl
  simp [h]

@[simp] theorem unlinked_qidOf (srv : MsgQSrv) (clt : ℕ) (rest : Registry) :
    (srv.unlinked clt rest).qidOf = srv.qidOf := by
  have h : (srv.unlinked clt rest).qidOf = ((srv.withNext (srv.prevOf clt) (srv.nextOf clt)).withPrev
    (srv.nextOf clt) (srv.prevOf clt)).qidOf := rfl
  simp [h]

theorem Linked.next_mem (h : srv.Linked xs) (hp : p ∈ xs) : srv.nextOf p ∈ srv.head :: xs := by
  obtain ⟨ys,zs,rfl⟩ := List.append_of_mem hp
  rw [h.ring.links.2.1]
  have hmem := Ring.head_mem srv.head zs
  simp only [List.mem_cons,List.mem_append] at hmem ⊢
  exact hmem.imp_right fun hz => Or.inr (Or.inr hz)

theorem Linked.prev_mem (h : srv.Linked xs) (hp : p ∈ xs) : srv.prevOf p ∈ srv.head :: xs := by
  obtain ⟨ys,zs,rfl⟩ := List.append_of_mem hp
  rw [h.ring.links.1.2]
  have hmem := Ring.last_mem srv.head ys
  simp only [List.mem_cons,List.mem_append] at hmem ⊢
  exact hmem.imp_right Or.inl

theorem unlink_eq (h : srv.Linked xs) (hp : p ∈ xs) : ∃ rest : Registry,
    srv.reg.live.Perm (p :: rest.live) ∧
      srv.unlink p = (Sys.request (.free p)).bind fun _ => .ret (0,srv.unlinked p rest) := by
  have hmem := List.mem_cons_of_mem srv.head hp
  have hp0 := h.ne_zero hmem
  have hprev := h.prev_mem hp
  have hnext := h.next_mem hp
  let srv₁ := srv.withNext (srv.prevOf p) (srv.nextOf p)
  let srv₂ := srv₁.withPrev (srv.nextOf p) (srv.prevOf p)
  have hsame : srv₁.nextOf p = srv.nextOf p := by
    simp [srv₁,Function.update_of_ne (h.ring.prev_ne hp).symm]
  have h₀ : srv.loadPrev p = .ret (srv.prevOf p) := loadPrev_eq hp0 (h.valid hmem)
  have h₁ : srv.loadNext p = .ret (srv.nextOf p) := loadNext_eq hp0 (h.valid hmem)
  have h₂ : srv.setNext (srv.prevOf p) (srv.nextOf p) = .ret srv₁ :=
    setNext_eq (h.ne_zero hprev) (h.valid hprev)
  have hvalid : srv₁.Valid p := h.valid hmem
  have h₃ : srv₁.loadNext p = .ret (srv.nextOf p) :=
    (loadNext_eq hp0 hvalid).trans (congrArg Program.ret hsame)
  have h₄ : srv₁.loadPrev p = .ret (srv.prevOf p) :=
    (loadPrev_eq hp0 hvalid).trans (by simp [srv₁])
  have h₅ : srv₁.setPrev (srv.nextOf p) (srv.prevOf p) = .ret srv₂ :=
    setPrev_eq (h.ne_zero hnext) (h.valid hnext)
  obtain ⟨rest,hperm,hcall⟩ := ofree_registered (h.live p hp)
  have hfree : ofree srv₂.reg p = _ := hcall
  refine ⟨rest,hperm,?_⟩
  rw [unlink]
  simp only [Program.bind_eq,Program.ret_bind,h₀,h₁,h₂,h₃,h₄,h₅,hfree,Program.bind_assoc]
  rfl

theorem Linked.unlinked {rest : Registry} (h : srv.Linked (ys ++ p :: zs))
    (hperm : srv.reg.live.Perm (p :: rest.live)) : (srv.unlinked p rest).Linked (ys ++ zs) := by
  have hprev := h.ring.links.1.2
  have hnext := h.ring.links.2.1
  have hnd := h.nodup
  rw [List.nodup_middle] at hnd
  refine ⟨?_,h.head_ne,fun q hq => ?_⟩
  · refine h.ring.remove ?_ ?_ ?_
    · rw [unlinked_nextOf,unlinked_prevOf,hprev,hnext]
      exact ⟨Function.update_self ..,Function.update_self ..⟩
    · intro y _ hy
      rw [unlinked_nextOf,hprev,Function.update_of_ne hy]
    · intro y _ hy
      rw [unlinked_prevOf,hnext,Function.update_of_ne hy]
  · have hlive : q ∈ srv.reg.live := by
      apply h.live q
      simp only [List.mem_append,List.mem_cons] at hq ⊢
      exact hq.imp_right Or.inr
    have hne : q ≠ p := fun hqp => (List.nodup_cons.mp hnd).1 (hqp ▸ hq)
    exact (List.mem_cons.mp (hperm.mem_iff.mp hlive)).resolve_left hne

end MsgQSrv
end LixRtos
