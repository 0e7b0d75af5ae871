import LixRtos.Interleaving

/-! Processes that make notes between their calls, such as what a function returned. Notes do not
change the world; they make visible in a run what happens inside a process. -/
namespace LixRtos

namespace Program

variable {C : Type} {R : C → Type} {A N α β : Type}

abbrev NotedAnswer (R : C → Type) (N : Type) : C ⊕ N → Type
  | .inl c => R c
  | .inr _ => Unit

def noted {α : Type} : Program C R α → Program (C ⊕ N) (NotedAnswer R N) α
  | ret a => ret a
  | call c next => Program.call (.inl c) fun r : R c => noted (next r)
  | loop body s next => loop (fun s => noted (body s)) s fun b => noted (next b)

def note (n : N) : Program (C ⊕ N) (NotedAnswer R N) Unit := call (.inr n) fun _ => ret ()

def Protocol.unnoted (P : Protocol (C ⊕ N) (NotedAnswer R N) A) : Protocol C R A where
  allows a c := P.allows a (.inl c)
  answers a c r := P.answers a (.inl c) r
  next a c r := P.next a (.inl c) r

theorem Follows.noted {P : Protocol (C ⊕ N) (NotedAnswer R N) A} {p : Program C R α} {a : A}
    {post : A → α → Prop} (h : p.Follows P.unnoted a post) : (noted p).Follows P a post := by
  induction p generalizing a with
  | ret x => exact h
  | call c next ih => exact ⟨h.1,fun r hr => ih r (h.2 r hr)⟩
  | loop body s next ihb ihn =>
    obtain ⟨inv,hinv,hbody⟩ := h
    refine ⟨inv,hinv,fun a s hs => (ihb s (hbody a s hs)).mono ?_⟩
    rintro a (s | b) h
    · exact h
    · exact ihn b h

theorem Follows.note {P : Protocol (C ⊕ N) (NotedAnswer R N) A} {a : A} {n : N}
    {post : A → Unit → Prop}
    (hallows : P.allows a (.inr n)) (h : post (P.next a (.inr n) ()) ()) :
    (Program.note n).Follows P a post :=
  ⟨hallows,fun _ _ => h⟩

def Kernel.noted {ι W : Type} (serve : Kernel ι W C R) : Kernel ι W (C ⊕ N) (NotedAnswer R N) :=
  fun w i c => match c with
    | .inl c => fun r => serve w i c r
    | .inr _ => fun _ => some w

end Program
end LixRtos
