import Mathlib.Data.Nat.Notation
import Mathlib.Logic.Function.Basic

/-! Programs that call their environment. `Yields` is what one run of a program does, and
`Follows` is a protocol that all of its runs keep to; loops may run forever. -/
namespace LixRtos

/-- A program ends, makes a call and goes on with the answer, or repeats a body until it gives
a result. -/
inductive Program (C : Type) (R : C → Type) : Type → Type 1
  | ret {α : Type} (a : α) : Program C R α
  | call {α : Type} (c : C) (next : R c → Program C R α) : Program C R α
  | loop {α β σ : Type} (body : σ → Program C R (σ ⊕ β)) (s : σ) (next : β → Program C R α) :
      Program C R α

namespace Program

variable {C : Type} {R : C → Type} {A B : Type} {α β σ : Type}

def bind {α β : Type} : Program C R α → (α → Program C R β) → Program C R β
  | ret a, f => f a
  | call c next, f => call c fun r => (next r).bind f
  | loop body s next, f => loop body s fun b => (next b).bind f

instance : Monad (Program C R) where
  pure := ret
  bind := bind

def perform (c : C) : Program C R (R c) := call c ret

/-- Repeat `body`: `inl` gives the state of the next turn, `inr` the result. -/
def iterate (body : σ → Program C R (σ ⊕ β)) (s : σ) : Program C R β := loop body s ret

def unfold (body : σ → Program C R (σ ⊕ β)) (s : σ) (next : β → Program C R α) : Program C R α :=
  (body s).bind (Sum.elim (fun s => loop body s next) next)

@[simp] theorem bind_eq (p : Program C R α) (f : α → Program C R β) : p >>= f = p.bind f := rfl

@[simp] theorem pure_eq (a : α) : (pure a : Program C R α) = ret a := rfl

@[simp] theorem ret_bind (a : α) (f : α → Program C R β) : (ret a).bind f = f a := rfl

theorem bind_ret (p : Program C R α) : p.bind ret = p := by
  induction p with
  | ret x => rfl
  | call c next ih => simp only [Program.bind,ih]
  | loop body s next _ ih => simp only [Program.bind,ih]

theorem bind_assoc {γ : Type} (p : Program C R α) (f : α → Program C R β) (g : β → Program C R γ) :
    (p.bind f).bind g = p.bind fun x => (f x).bind g := by
  induction p with
  | ret x => rfl
  | call c next ih => simp only [Program.bind,ih]
  | loop body s next _ ih => simp only [Program.bind,ih]

theorem unfold_bind (body : σ → Program C R (σ ⊕ β)) (s : σ) {γ : Type} (next : β → Program C R α)
    (f : α → Program C R γ) :
    (unfold body s next).bind f = unfold body s fun b => (next b).bind f := by
  rw [unfold,bind_assoc,unfold]
  congr 1
  funext r
  cases r <;> rfl

structure Exchange (C : Type) (R : C → Type) where
  call : C
  answer : R call

/-- The program can make these calls, get these answers and end with this result. -/
inductive Yields : {α : Type} → Program C R α → List (Exchange C R) → α → Prop
  | ret {α : Type} (a : α) : Yields (ret a) [] a
  | call {α : Type} {c : C} {next : R c → Program C R α} {tr : List (Exchange C R)} {a : α}
      (r : R c) (h : Yields (next r) tr a) : Yields (call c next) (⟨c,r⟩ :: tr) a
  | loop {α β σ : Type} {body : σ → Program C R (σ ⊕ β)} {s : σ} {next : β → Program C R α}
      {tr : List (Exchange C R)} {a : α} (h : Yields (unfold body s next) tr a) :
      Yields (loop body s next) tr a

theorem Yields.of_ret {x a : α} {tr : List (Exchange C R)} (h : Yields (Program.ret x) tr a) : tr =
    [] ∧ a = x := by
  cases h
  exact ⟨rfl,rfl⟩

theorem Yields.of_call {c : C} {next : R c → Program C R α} {tr : List (Exchange C R)} {a : α}
    (h : Yields (Program.call c next) tr a) : ∃ r tr', tr = ⟨c,r⟩ :: tr' ∧ Yields (next r) tr' a := by
  cases h with
  | call r h => exact ⟨r,_,rfl,h⟩

theorem Yields.bind {p : Program C R α} {f : α → Program C R β} {tr tr' : List (Exchange C R)} {x : α}
    {y : β} (h : Yields p tr x) (hf : Yields (f x) tr' y) : Yields (p.bind f) (tr ++ tr') y := by
  induction h with
  | ret x => exact hf
  | call r _ ih => exact .call r (ih hf)
  | loop _ ih =>
    refine .loop ?_
    rw [← unfold_bind]
    exact ih hf

/-- A run of a program with a rest has a run of the program in front. -/
theorem Yields.of_bind {p : Program C R α} {f : α → Program C R β} {tr : List (Exchange C R)} {y : β}
    (h : Yields (p.bind f) tr y) :
    ∃ tr₁ tr₂ x, tr = tr₁ ++ tr₂ ∧ Yields p tr₁ x ∧ Yields (f x) tr₂ y := by
  generalize hq : p.bind f = q at h
  induction h generalizing p with
  | ret a =>
    cases p with
    | ret x =>
      have hx : f x = Program.ret a := hq
      exact ⟨[],[],x,rfl,.ret x,by rw [hx]; exact .ret a⟩
    | call c next => exact absurd hq (by simp [Program.bind])
    | loop body s next => exact absurd hq (by simp [Program.bind])
  | @call c next tr y r h ih =>
    cases p with
    | ret x =>
      have hx : f x = Program.call c next := hq
      exact ⟨[],_,x,rfl,.ret x,by rw [hx]; exact .call r h⟩
    | call c' next' =>
      simp only [Program.bind,Program.call.injEq] at hq
      obtain ⟨rfl,hnext⟩ := hq
      obtain ⟨tr₁,tr₂,x,rfl,h₁,h₂⟩ := ih (congrFun (eq_of_heq hnext) r)
      exact ⟨⟨c',r⟩ :: tr₁,tr₂,x,rfl,.call r h₁,h₂⟩
    | loop body s next' => exact absurd hq (by simp [Program.bind])
  | @loop _ _ body s next tr y h ih =>
    cases p with
    | ret x =>
      have hx : f x = Program.loop body s next := hq
      exact ⟨[],_,x,rfl,.ret x,by rw [hx]; exact .loop h⟩
    | call c' next' => exact absurd hq (by simp [Program.bind])
    | loop body' s' next' =>
      simp only [Program.bind,Program.loop.injEq] at hq
      obtain ⟨rfl,rfl,hbody,rfl,hnext⟩ := hq
      obtain rfl := eq_of_heq hbody
      obtain rfl := eq_of_heq hnext
      obtain ⟨tr₁,tr₂,x,rfl,h₁,h₂⟩ := ih (p := Program.unfold body' s' next') (unfold_bind _ _ _ _)
      exact ⟨tr₁,tr₂,x,rfl,.loop h₁,h₂⟩

/-- The answers decide the result. -/
theorem Yields.unique {p : Program C R α} {tr : List (Exchange C R)} {x y : α} (h : Yields p tr x)
    (h' : Yields p tr y) : x = y := by
  induction h with
  | ret x => exact (h'.of_ret).2.symm
  | call r _ ih =>
    obtain ⟨r',tr',htr,h'⟩ := h'.of_call
    obtain ⟨he,rfl⟩ := List.cons_eq_cons.mp htr
    cases he
    exact ih h'
  | loop _ ih =>
    cases h' with
    | loop h' => exact ih h'

theorem Yields.iterate_done {body : σ → Program C R (σ ⊕ β)} {s : σ} {tr : List (Exchange C R)} {b : β}
    (h : Yields (body s) tr (.inr b)) : Yields (iterate body s) tr b := by
  have hrun : Yields (unfold body s Program.ret) (tr ++ []) b := h.bind (.ret b)
  rw [List.append_nil] at hrun
  exact .loop hrun

theorem Yields.iterate_again {body : σ → Program C R (σ ⊕ β)} {s s' : σ} {tr tr' : List (Exchange C R)}
    {b : β} (h : Yields (body s) tr (.inl s')) (h' : Yields (iterate body s') tr' b) :
    Yields (iterate body s) (tr ++ tr') b := .loop (h.bind h')

/-- Run a program on a list of answers, with `n` steps at most. -/
def replay [DecidableEq C] : ℕ → Program C R α → List (Exchange C R) → Option α
  | _+1, ret a, [] => some a
  | n+1, call c next, e :: tr => if h : e.call = c then replay n (next (h ▸ e.answer)) tr else none
  | n+1, loop body s next, tr => replay n (unfold body s next) tr
  | _, _, _ => none

theorem replay_yields [DecidableEq C] {n : ℕ} {p : Program C R α} {tr : List (Exchange C R)} {a : α}
    (h : replay n p tr = some a) : Yields p tr a := by
  induction n generalizing p tr with
  | zero => exact absurd h (by simp [replay])
  | succ n ih =>
    cases p with
    | ret x =>
      cases tr with
      | nil => exact Option.some.inj h ▸ .ret x
      | cons e tr => exact absurd h (by simp [replay])
    | call c next =>
      cases tr with
      | nil => exact absurd h (by simp [replay])
      | cons e tr =>
        obtain ⟨c',answer⟩ := e
        simp only [replay] at h
        split at h
        · next hc =>
          subst hc
          exact .call answer (ih h)
        · exact absurd h (by simp)
    | loop body s next => exact .loop (ih h)

/-- What a program may call in each state of the protocol, what the environment may answer, and
how calls move the state. -/
structure Protocol (C : Type) (R : C → Type) (A : Type) where
  allows : A → C → Prop
  answers : A → (c : C) → R c → Prop
  next : A → (c : C) → R c → A

/-- In every run the program calls only what the protocol allows, as long as the answers are
allowed, and it ends in a state and with a result that satisfy `post`. -/
def Follows (P : Protocol C R A) {α : Type} : Program C R α → A → (A → α → Prop) → Prop
  | ret x, a, post => post a x
  | call c next, a, post =>
    P.allows a c ∧ ∀ r, P.answers a c r → Follows P (next r) (P.next a c r) post
  | @loop _ _ _ _ σ body s next, a, post =>
    ∃ inv : A → σ → Prop, inv a s ∧ ∀ a s, inv a s → Follows P (body s) a fun a r =>
      match r with
      | .inl s => inv a s
      | .inr b => Follows P (next b) a post

variable {P : Protocol C R A} {a : A}

theorem Follows.mono {p : Program C R α} {post post' : A → α → Prop} (h : p.Follows P a post)
    (hpost : ∀ a x, post a x → post' a x) : p.Follows P a post' := by
  induction p generalizing a with
  | ret x => exact hpost a x h
  | call c next ih => exact ⟨h.1,fun r hr => ih r (h.2 r hr) hpost⟩
  | loop body s next ihb ihn =>
    obtain ⟨inv,hinv,hbody⟩ := h
    refine ⟨inv,hinv,fun a s hs => ihb s (hbody a s hs) ?_⟩
    rintro a (s | b) h
    · exact h
    · exact ihn b h hpost

theorem Follows.bind {p : Program C R α} {f : α → Program C R β} {post : A → β → Prop}
    (h : p.Follows P a fun a x => (f x).Follows P a post) : (p.bind f).Follows P a post := by
  induction p generalizing a with
  | ret x => exact h
  | call c next ih => exact ⟨h.1,fun r hr => ih r (h.2 r hr)⟩
  | loop body s next ihb ihn =>
    obtain ⟨inv,hinv,hbody⟩ := h
    refine ⟨inv,hinv,fun a s hs => (hbody a s hs).mono ?_⟩
    rintro a (s | b) h
    · exact h
    · exact ihn b h

theorem Follows.and {p : Program C R α} {post post' : A → α → Prop} (h : p.Follows P a post)
    (h' : p.Follows P a post') : p.Follows P a fun a x => post a x ∧ post' a x := by
  induction p generalizing a with
  | ret x => exact ⟨h,h'⟩
  | call c next ih => exact ⟨h.1,fun r hr => ih r (h.2 r hr) (h'.2 r hr)⟩
  | loop body s next ihb ihn =>
    obtain ⟨inv,hinv,hbody⟩ := h
    obtain ⟨inv',hinv',hbody'⟩ := h'
    refine ⟨fun a s => inv a s ∧ inv' a s,⟨hinv,hinv'⟩,fun a s hs => ?_⟩
    apply (ihb s (hbody a s hs.1) (hbody' a s hs.2)).mono
    rintro a (s | b) h
    · exact h
    · exact ihn b h.1 h.2

theorem Follows.perform {c : C} {post : A → R c → Prop} (hallows : P.allows a c)
    (h : ∀ r, P.answers a c r → post (P.next a c r) r) : (perform c).Follows P a post :=
  ⟨hallows,h⟩

/-- The rule for loops. -/
theorem Follows.iterate {body : σ → Program C R (σ ⊕ β)} {s : σ} {post : A → β → Prop}
    (inv : A → σ → Prop) (h : inv a s) (hbody : ∀ a s, inv a s → (body s).Follows P a
      (fun a r => match r with
        | .inl s => inv a s
        | .inr b => post a b)) : (iterate body s).Follows P a post :=
  ⟨inv,h,hbody⟩

theorem Follows.iterate_first {body : σ → Program C R (σ ⊕ β)} {s : σ} {post : A → β → Prop}
    (inv : A → σ → Prop) (hfirst : (body s).Follows P a (fun a r => match r with
        | .inl s => inv a s
        | .inr b => post a b))
    (hbody : ∀ a s, inv a s → (body s).Follows P a
      (fun a r => match r with
        | .inl s => inv a s
        | .inr b => post a b)) : (Program.iterate body s).Follows P a post := by
  apply Follows.iterate (fun a' s' => (a' = a ∧ s' = s) ∨ inv a' s') (Or.inl ⟨rfl,rfl⟩)
  intro a' s' h
  have hturn : (body s').Follows P a' (fun a r => match r with
        | .inl s => inv a s
        | .inr b => post a b) := by
    rcases h with ⟨rfl,rfl⟩ | h
    · exact hfirst
    · exact hbody a' s' h
  apply hturn.mono
  rintro a (s | b) h
  · exact Or.inr h
  · exact h

theorem Follows.unfold {body : σ → Program C R (σ ⊕ β)} {s : σ} {next : β → Program C R α}
    {post : A → α → Prop} (h : (loop body s next).Follows P a post) :
    (Program.unfold body s next).Follows P a post := by
  obtain ⟨inv,hinv,hbody⟩ := h
  refine Follows.bind ((hbody a s hinv).mono ?_)
  rintro a (s | b) h
  · exact ⟨inv,h,hbody⟩
  · exact h

def Protocol.Accepts (P : Protocol C R A) : A → List (Exchange C R) → Prop
  | _, [] => True
  | a, e :: tr => P.answers a e.call e.answer ∧ P.Accepts (P.next a e.call e.answer) tr

def Protocol.Permits (P : Protocol C R A) : A → List (Exchange C R) → Prop
  | _, [] => True
  | a, e :: tr => P.allows a e.call ∧ P.Permits (P.next a e.call e.answer) tr

def Protocol.final (P : Protocol C R A) : A → List (Exchange C R) → A
  | a, [] => a
  | a, e :: tr => P.final (P.next a e.call e.answer) tr

theorem Protocol.permits_append {tr tr' : List (Exchange C R)} :
    P.Permits a (tr ++ tr') ↔ P.Permits a tr ∧ P.Permits (P.final a tr) tr' := by
  induction tr generalizing a with
  | nil => simp [Permits,final]
  | cons e tr ih => simp only [List.cons_append,Permits,final,ih,and_assoc]

theorem Protocol.final_append (tr tr' : List (Exchange C R)) :
    P.final a (tr ++ tr') = P.final (P.final a tr) tr' := by
  induction tr generalizing a with
  | nil => rfl
  | cons e tr ih => exact ih

theorem Follows.yields {p : Program C R α} {post : A → α → Prop} {tr : List (Exchange C R)} {x : α}
    (h : p.Follows P a post) (hy : Yields p tr x) (hacc : P.Accepts a tr) :
    post (P.final a tr) x := by
  induction hy generalizing a with
  | ret x => exact h
  | call r _ ih => exact ih (h.2 r hacc.1) hacc.2
  | loop _ ih => exact ih h.unfold hacc

theorem Follows.permits {p : Program C R α} {post : A → α → Prop} {tr : List (Exchange C R)} {x : α}
    (h : p.Follows P a post) (hy : Yields p tr x) (hacc : P.Accepts a tr) : P.Permits a tr := by
  induction hy generalizing a with
  | ret x => exact trivial
  | call r _ ih => exact ⟨h.1,ih (h.2 r hacc.1) hacc.2⟩
  | loop _ ih => exact ih h.unfold hacc

def Protocol.both (P : Protocol C R A) (Q : Protocol C R B) : Protocol C R (A × B) where
  allows a c := P.allows a.1 c ∧ Q.allows a.2 c
  answers a c r := P.answers a.1 c r ∧ Q.answers a.2 c r
  next a c r := (P.next a.1 c r,Q.next a.2 c r)

theorem Protocol.final_left {Q : Protocol C R B} {b : B} (tr : List (Exchange C R)) :
    ((P.both Q).final (a,b) tr).1 = P.final a tr := by
  induction tr generalizing a b with
  | nil => rfl
  | cons e tr ih => exact ih

theorem Protocol.accepts_left {Q : Protocol C R B} {b : B} {tr : List (Exchange C R)}
    (h : (P.both Q).Accepts (a,b) tr) : P.Accepts a tr := by
  induction tr generalizing a b with
  | nil => trivial
  | cons e tr ih => exact ⟨h.1.1,ih h.2⟩

theorem Protocol.permits_left {Q : Protocol C R B} {b : B} {tr : List (Exchange C R)}
    (h : (P.both Q).Permits (a,b) tr) : P.Permits a tr := by
  induction tr generalizing a b with
  | nil => trivial
  | cons e tr ih => exact ⟨h.1.1,ih h.2⟩

theorem Protocol.both_final {Q : Protocol C R B} {b : B} (tr : List (Exchange C R)) :
    (P.both Q).final (a,b) tr = (P.final a tr,Q.final b tr) := by
  induction tr generalizing a b with
  | nil => rfl
  | cons e tr ih => exact ih

theorem Protocol.accepts_both {Q : Protocol C R B} {b : B} {tr : List (Exchange C R)}
    (h : P.Accepts a tr) (h' : Q.Accepts b tr) : (P.both Q).Accepts (a,b) tr := by
  induction tr generalizing a b with
  | nil => trivial
  | cons e tr ih => exact ⟨⟨h.1,h'.1⟩,ih h.2 h'.2⟩

def Protocol.free : Protocol C R Unit where
  allows _ _ := True
  answers _ _ _ := True
  next _ _ _ := ()

/-- Every call that the program can make satisfies `ok`. -/
def Only (ok : C → Prop) : {α : Type} → Program C R α → Prop
  | _, .ret _ => True
  | _, .call c next => ok c ∧ ∀ r, Only ok (next r)
  | _, .loop body _ next => (∀ s, Only ok (body s)) ∧ ∀ b, Only ok (next b)

variable {ok : C → Prop}

theorem Only.bind {p : Program C R α} {f : α → Program C R β} (hp : p.Only ok)
    (hf : ∀ x, (f x).Only ok) :
    (p.bind f).Only ok := by
  induction p with
  | ret x => exact hf x
  | call c next ih => exact ⟨hp.1,fun r => ih r (hp.2 r) hf⟩
  | loop body s next _ ih => exact ⟨hp.1,fun b => ih b (hp.2 b) hf⟩

theorem Only.mono {ok' : C → Prop} {p : Program C R α} (h : p.Only ok) (hok : ∀ c, ok c → ok' c) :
    p.Only ok' := by
  induction p with
  | ret x => trivial
  | call c next ih => exact ⟨hok c h.1,fun r => ih r (h.2 r)⟩
  | loop body s next ihb ihn => exact ⟨fun s => ihb s (h.1 s),fun b => ihn b (h.2 b)⟩

theorem Only.iterate {body : σ → Program C R (σ ⊕ β)} (h : ∀ s, (body s).Only ok) (s : σ) :
    (Program.iterate body s).Only ok :=
  ⟨h,fun _ => trivial⟩

theorem Only.unfold {body : σ → Program C R (σ ⊕ β)} {s : σ} {next : β → Program C R α}
    (h : (loop body s next).Only ok) : (Program.unfold body s next).Only ok := by
  refine (h.1 s).bind fun r => ?_
  cases r with
  | inl s => exact h
  | inr b => exact h.2 b

theorem Only.mem {p : Program C R α} {tr : List (Exchange C R)} {x : α} (h : p.Only ok)
    (hy : p.Yields tr x) : ∀ e ∈ tr, ok e.call := by
  induction hy with
  | ret x => exact fun _ he => absurd he List.not_mem_nil
  | call r _ ih => exact List.forall_mem_cons.mpr ⟨h.1,ih (h.2 r)⟩
  | loop _ ih => exact ih h.unfold

/-- The calls that satisfy `ok` are allowed, with any answers. -/
def Protocol.within (ok : C → Prop) : Protocol C R Unit where
  allows _ c := ok c
  answers _ _ _ := True
  next _ _ _ := ()

theorem Only.within {p : Program C R α} (hp : p.Only ok) : p.Follows (.within ok) () fun _ _ =>
    True := by
  induction p with
  | ret x => trivial
  | call c next ih => exact ⟨hp.1,fun r _ => ih r (hp.2 r)⟩
  | loop body s next ihb ihn =>
    refine ⟨fun _ _ => True,trivial,fun _ s _ => (ihb s (hp.1 s)).mono ?_⟩
    rintro _ (s | b) _
    · trivial
    · exact ihn b (hp.2 b)

theorem Only.then {p : Program C R α} {f : α → Program C R β} {post : Unit → β → Prop} (hp : p.Only ok)
    (hf : ∀ x, (f x).Follows (.within ok) () post) : (p.bind f).Follows (.within ok) () post :=
  Follows.bind (hp.within.mono fun _ x _ => hf x)

/-- What all of these calls keep holds in the end. -/
theorem Follows.of_within {p : Program C R α} {I : A → Prop} {Q : α → Prop}
    (h : p.Follows (.within ok) () fun _ x => Q x) (ha : I a) (hallows : ∀ a c, I a → ok c →
      P.allows a c)
    (hnext : ∀ a c r, I a → ok c → I (P.next a c r)) : p.Follows P a fun a x => I a ∧ Q x := by
  induction p generalizing a with
  | ret x => exact ⟨ha,h⟩
  | call c next ih => exact ⟨hallows a c ha h.1,fun r _ => ih r (h.2 r trivial) (hnext a c r ha h.1)⟩
  | loop body s next ihb ihn =>
    obtain ⟨inv,hinv,hbody⟩ := h
    refine ⟨fun a s => I a ∧ inv () s,⟨ha,hinv⟩,fun a s hs => ?_⟩
    have hturn : (body s).Follows (.within ok) () fun _ r => match r with
      | .inl s => inv () s
      | .inr b => Follows (.within ok) (next b) () fun _ x => Q x := hbody () s hs.2
    apply (ihb s hturn hs.1).mono
    rintro a (s | b) ⟨ha,h⟩
    · exact ⟨ha,h⟩
    · exact ihn b h ha

theorem Only.follows {p : Program C R α} {I : A → Prop} (hp : p.Only ok) (ha : I a)
    (hallows : ∀ a c, I a → ok c → P.allows a c) (hnext : ∀ a c r, I a → ok c → I (P.next a c r)) :
    p.Follows P a fun a _ => I a :=
  (hp.within.of_within ha hallows hnext).mono fun _ _ h => h.1

/-- Everything is allowed, and what `f` sees of the calls is recorded. -/
def Protocol.observe (f : Exchange C R → Option B) : Protocol C R (List B) where
  allows _ _ := True
  answers _ _ _ := True
  next seen c r := seen ++ (f ⟨c,r⟩).toList

theorem Protocol.observe_accepts (f : Exchange C R → Option B) (seen : List B)
    (tr : List (Exchange C R)) :
    (Protocol.observe f).Accepts seen tr := by
  induction tr generalizing seen with
  | nil => trivial
  | cons e tr ih => exact ⟨trivial,ih _⟩

theorem Protocol.observe_final (f : Exchange C R → Option B) (seen : List B)
    (tr : List (Exchange C R)) :
    (Protocol.observe f).final seen tr = seen ++ tr.filterMap f := by
  induction tr generalizing seen with
  | nil => simp [Protocol.final]
  | cons e tr ih =>
    rw [Protocol.final,ih,List.filterMap_cons]
    cases h : f e <;> simp [Protocol.observe,h]

theorem Follows.observed {f : Exchange C R → Option B} {p : Program C R α} {post : List B → α → Prop}
    {tr : List (Exchange C R)} {x : α} (h : p.Follows (Protocol.observe f) [] post)
    (hy : Yields p tr x) :
    post (tr.filterMap f) x := by
  have hpost := h.yields hy (Protocol.observe_accepts f [] tr)
  rwa [Protocol.observe_final,List.nil_append] at hpost

def Protocol.logged (P : Protocol C R A) : Protocol C R (A × List (Exchange C R)) where
  allows a c := P.allows a.1 c
  answers a c r := P.answers a.1 c r
  next a c r := (P.next a.1 c r,a.2 ++ [⟨c,r⟩])

theorem Follows.of_logged {p : Program C R α} {post : A × List (Exchange C R) → α → Prop}
    {seen tr : List (Exchange C R)} {x : α} (h : p.Follows P.logged (a,seen) post) (hy : Yields p tr x)
    (hacc : P.Accepts a tr) : post (P.final a tr,seen ++ tr) x := by
  induction hy generalizing a seen with
  | ret x =>
    rw [List.append_nil]
    exact h
  | call r _ ih =>
    have hpost := ih (h.2 r hacc.1) hacc.2
    rwa [List.append_assoc] at hpost
  | loop _ ih => exact ih h.unfold hacc

/-- Every run ends, calls only what the protocol allows, and satisfies `post`. -/
inductive Ends (P : Protocol C R A) : {α : Type} → Program C R α → A → (A → α → Prop) → Prop
  | ret {α : Type} {x : α} {a : A} {post : A → α → Prop} (h : post a x) : Ends P (.ret x) a post
  | call {α : Type} {c : C} {next : R c → Program C R α} {a : A} {post : A → α → Prop}
      (hallows : P.allows a c)
      (h : ∀ r, P.answers a c r → Ends P (next r) (P.next a c r) post) : Ends P (.call c next) a post
  | loop {α β σ : Type} {body : σ → Program C R (σ ⊕ β)} {s : σ} {next : β → Program C R α} {a : A}
      {post : A → α → Prop} (h : Ends P (Program.unfold body s next) a post) :
      Ends P (.loop body s next) a post

theorem Ends.of_ret {x : α} {post : A → α → Prop} (h : Ends P (Program.ret x) a post) : post a x := by
  cases h with
  | ret h => exact h

theorem ends_call {c : C} {next : R c → Program C R α} {post : A → α → Prop} :
    Ends P (Program.call c next) a post ↔
      P.allows a c ∧ ∀ r, P.answers a c r → Ends P (next r) (P.next a c r) post := by
  constructor
  · intro h
    cases h with
    | call hallows h => exact ⟨hallows,h⟩
  · exact fun h => .call h.1 h.2

theorem ends_call_of_eq {c : C} {next : R c → Program C R α} {post : A → α → Prop} {r : R c}
    (hanswers : ∀ r', P.answers a c r' ↔ r' = r) (hallows : P.allows a c) :
    Ends P (Program.call c next) a post ↔ Ends P (next r) (P.next a c r) post := by
  rw [ends_call]
  refine ⟨fun h => h.2 r ((hanswers r).mpr rfl),fun h => ⟨hallows,fun r' hr' => ?_⟩⟩
  rwa [(hanswers r').mp hr']

theorem ends_loop {body : σ → Program C R (σ ⊕ β)} {s : σ} {next : β → Program C R α}
    {post : A → α → Prop} :
    Ends P (Program.loop body s next) a post ↔ Ends P (Program.unfold body s next) a post := by
  constructor
  · intro h
    cases h with
    | loop h => exact h
  · exact .loop

theorem Ends.mono {p : Program C R α} {post post' : A → α → Prop} (h : Ends P p a post)
    (hpost : ∀ a x, post a x → post' a x) : Ends P p a post' := by
  induction h with
  | ret h => exact .ret (hpost _ _ h)
  | call hallows _ ih => exact .call hallows fun r hr => ih r hr hpost
  | loop _ ih => exact .loop (ih hpost)

theorem Ends.bind {p : Program C R α} {f : α → Program C R β} {post : A → β → Prop}
    (h : Ends P p a fun a x => Ends P (f x) a post) : Ends P (p.bind f) a post := by
  generalize hpost : (fun a x => Ends P (f x) a post) = post' at h
  induction h with
  | ret h =>
    subst hpost
    exact h
  | call hallows _ ih => exact .call hallows fun r hr => ih r hr hpost
  | loop _ ih =>
    refine .loop ?_
    rw [← unfold_bind]
    exact ih hpost

/-- The part in front ends as well, where the rest ends. -/
theorem Ends.of_bind {p : Program C R α} {f : α → Program C R β} {post : A → β → Prop}
    (h : Ends P (p.bind f) a post) : Ends P p a fun a x => Ends P (f x) a post := by
  generalize hq : p.bind f = q at h
  induction h generalizing p with
  | ret h =>
    cases p with
    | ret x =>
      have hx : f x = Program.ret _ := hq
      exact .ret (by rw [hx]; exact .ret h)
    | call c next => exact absurd hq (by simp [Program.bind])
    | loop body s next => exact absurd hq (by simp [Program.bind])
  | @call c next a post hallows h ih =>
    cases p with
    | ret x =>
      have hx : f x = Program.call c next := hq
      exact .ret (by rw [hx]; exact .call hallows h)
    | call c' next' =>
      simp only [Program.bind,Program.call.injEq] at hq
      obtain ⟨rfl,hnext⟩ := hq
      exact .call hallows fun r hr => ih r hr (congrFun (eq_of_heq hnext) r)
    | loop body s next' => exact absurd hq (by simp [Program.bind])
  | @loop _ _ body s next a post h ih =>
    cases p with
    | ret x =>
      have hx : f x = Program.loop body s next := hq
      exact .ret (by rw [hx]; exact .loop h)
    | call c' next' => exact absurd hq (by simp [Program.bind])
    | loop body' s' next' =>
      simp only [Program.bind,Program.loop.injEq] at hq
      obtain ⟨rfl,rfl,hbody,rfl,hnext⟩ := hq
      obtain rfl := eq_of_heq hbody
      obtain rfl := eq_of_heq hnext
      exact .loop (ih (unfold_bind _ _ _ _))

theorem ends_bind {p : Program C R α} {f : α → Program C R β} {post : A → β → Prop} :
    Ends P (p.bind f) a post ↔ Ends P p a fun a x => Ends P (f x) a post := ⟨Ends.of_bind,Ends.bind⟩

theorem Ends.perform {c : C} {post : A → R c → Prop} (hallows : P.allows a c)
    (h : ∀ r, P.answers a c r → post (P.next a c r) r) : Ends P (perform c) a post :=
  .call hallows fun r hr => .ret (h r hr)

theorem Ends.iterate {body : σ → Program C R (σ ⊕ β)} {s : σ} {post : A → β → Prop}
    (h : Ends P (body s) a fun a r => Ends P (r.elim (iterate body) Program.ret) a post) :
    Ends P (iterate body s) a post := by
  refine .loop (Ends.bind (h.mono ?_))
  rintro a (s | b) h
  · exact h
  · exact h

theorem Ends.follows {p : Program C R α} {post : A → α → Prop} (h : Ends P p a post) :
    p.Follows P a post := by
  induction p generalizing a with
  | ret x => exact h.of_ret
  | call c next ih =>
    obtain ⟨hallows,h⟩ := ends_call.mp h
    exact ⟨hallows,fun r hr => ih r (h r hr)⟩
  | loop body s next ihb ihn =>
    -- the loop ends from every state that it comes to
    refine ⟨fun a s => Ends P (Program.loop body s next) a post,h,fun a s hs => ?_⟩
    have hturn := Ends.of_bind (ends_loop.mp hs)
    apply (ihb s hturn).mono
    rintro a (s | b) h
    · exact h
    · exact ihn b h

theorem Ends.follows_bind {p : Program C R α} {f : α → Program C R β} {post : A → β → Prop}
    (h : Ends P (p.bind f) a post) : p.Follows P a fun a x => Ends P (f x) a post := h.of_bind.follows

/-- A program that ends under one protocol and keeps to another one ends under both. -/
theorem Ends.both {Q : Protocol C R B} {p : Program C R α} {post : A → α → Prop}
    {post' : B → α → Prop} {b : B}
    (h : Ends P p a post) (h' : p.Follows Q b post') : Ends (P.both Q) p (a,b) fun s x =>
      post s.1 x ∧ post' s.2 x := by
  induction h generalizing b with
  | ret h => exact .ret ⟨h,h'⟩
  | call hallows _ ih => exact .call ⟨hallows,h'.1⟩ fun r hr => ih r hr.1 (h'.2 r hr.2)
  | loop _ ih => exact .loop (ih h'.unfold)

def LoopFree : {α : Type} → Program C R α → Prop
  | _, .ret _ => True
  | _, .call _ next => ∀ r, LoopFree (next r)
  | _, .loop _ _ _ => False

theorem LoopFree.bind {p : Program C R α} {f : α → Program C R β} (hp : p.LoopFree)
    (hf : ∀ x, (f x).LoopFree) : (p.bind f).LoopFree := by
  induction p with
  | ret x => exact hf x
  | call c next ih => exact fun r => ih r (hp r) hf
  | loop body s next => exact hp.elim

theorem Follows.ends {p : Program C R α} {post : A → α → Prop} (h : p.Follows P a post)
    (hp : p.LoopFree) : Ends P p a post := by
  induction p generalizing a with
  | ret x => exact .ret h
  | call c next ih => exact .call h.1 fun r hr => ih r (h.2 r hr) (hp r)
  | loop body s next => exact hp.elim

/-- With any answers a program without loops ends with one of its runs. -/
theorem LoopFree.runs {p : Program C R α} (hp : p.LoopFree) (seen : List (Exchange C R)) :
    Ends Protocol.free.logged p ((),seen) fun s x => ∃ tr, s.2 = seen ++ tr ∧ p.Yields tr x := by
  induction p generalizing seen with
  | ret x => exact .ret ⟨[],(List.append_nil seen).symm,.ret x⟩
  | call c next ih =>
    refine .call trivial fun r _ => (ih r (hp r) _).mono ?_
    rintro s x ⟨tr,hseen,hy⟩
    exact ⟨⟨c,r⟩ :: tr,by rw [hseen,List.append_assoc,List.singleton_append],.call r hy⟩
  | loop body s next => exact hp.elim

theorem Ends.exists_run {p : Program C R α} {post : A → α → Prop} (h : Ends P p a post)
    (hanswers : ∀ a c, P.allows a c → ∃ r, P.answers a c r) :
    ∃ tr x, Yields p tr x ∧ P.Accepts a tr ∧ post (P.final a tr) x := by
  induction h with
  | ret h => exact ⟨[],_,.ret _,trivial,h⟩
  | call hallows _ ih =>
    obtain ⟨r,hr⟩ := hanswers _ _ hallows
    obtain ⟨tr,x,hy,hacc,hpost⟩ := ih r hr
    exact ⟨⟨_,r⟩ :: tr,x,.call r hy,⟨hr,hacc⟩,hpost⟩
  | loop _ ih =>
    obtain ⟨tr,x,hy,hrest⟩ := ih
    exact ⟨tr,x,.loop hy,hrest⟩

/-- A program that has no run does not end. -/
theorem Follows.not_ends {p : Program C R α} {post : A → α → Prop}
    (h : p.Follows P a fun _ _ => False) (hanswers : ∀ a c, P.allows a c → ∃ r, P.answers a c r) :
    ¬ Ends P p a post := by
  intro hends
  obtain ⟨tr,x,hy,hacc,_⟩ := hends.exists_run hanswers
  exact h.yields hy hacc

theorem Yields.silent_ends {p : Program C R α} {x : α} (h : Yields p [] x) :
    Ends P p a fun a' y => a' = a ∧ y = x := by
  generalize htr : ([] : List (Exchange C R)) = tr at h
  induction h with
  | ret x => exact .ret ⟨rfl,rfl⟩
  | call r _ _ => exact absurd htr (List.cons_ne_nil _ _).symm
  | loop _ ih => exact .loop (ih htr)

theorem Yields.silent_again {body : σ → Program C R (σ ⊕ β)} {s s' : σ} {b : β}
    (h : body s = .ret (.inl s'))
    (h' : Yields (iterate body s') [] b) : Yields (iterate body s) [] b :=
  (h ▸ Yields.ret _ : Yields (body s) [] (.inl s')).iterate_again h'

theorem Yields.silent_done {body : σ → Program C R (σ ⊕ β)} {s : σ} {b : β}
    (h : body s = .ret (.inr b)) :
    Yields (iterate body s) [] b :=
  (h ▸ Yields.ret _ : Yields (body s) [] (.inr b)).iterate_done

/-- What follows a program without calls follows from its result. -/
theorem Follows.of_silent {p : Program C R α} {f : α → Program C R β} {x : α} {post : A → β → Prop}
    (hp : Yields p [] x) (h : (p.bind f).Follows P a post) : (f x).Follows P a post := by
  generalize htr : ([] : List (Exchange C R)) = tr at hp
  induction hp with
  | ret x => exact h
  | call r _ _ => exact absurd htr (List.cons_ne_nil _ _).symm
  | loop _ ih =>
    have hturn := h.unfold
    rw [← unfold_bind] at hturn
    exact ih hturn htr

section Extend

variable {D : Type} {S : D → Type}

def extend {α : Type} : Program C R α → Program (C ⊕ D) (Sum.elim R S) α
  | ret x => ret x
  | call c next => call (.inl c) fun r => (next r).extend
  | loop body s next => loop (fun s => (body s).extend) s fun b => (next b).extend

/-- A protocol of more calls, for a program that does not make them. -/
def Protocol.restrict (P : Protocol (C ⊕ D) (Sum.elim R S) A) : Protocol C R A where
  allows a c := P.allows a (.inl c)
  answers a c r := P.answers a (.inl c) r
  next a c r := P.next a (.inl c) r

theorem Follows.extend {P : Protocol (C ⊕ D) (Sum.elim R S) A} {p : Program C R α}
    {post : A → α → Prop}
    (h : p.Follows P.restrict a post) : p.extend.Follows P a post := by
  induction p generalizing a with
  | ret x => exact h
  | call c next ih => exact ⟨h.1,fun r hr => ih r (h.2 r hr)⟩
  | loop body s next ihb ihn =>
    obtain ⟨inv,hinv,hbody⟩ := h
    refine ⟨inv,hinv,fun a s hs => (ihb s (hbody a s hs)).mono ?_⟩
    rintro a (s | b) h
    · exact h
    · exact ihn b h

end Extend

end Program
end LixRtos
