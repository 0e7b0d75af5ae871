import LixRtos.Program

/-! Processes that run programs over a shared world, one call at a time in any order.
If every program keeps to its protocol, an invariant of the protocols and the world holds in
every run. -/
namespace LixRtos

namespace Program

variable {C : Type} {R : C → Type}

/-- A call that a process made, with its answer. -/
structure Event (ι C : Type) (R : C → Type) where
  pid : ι
  call : C
  answer : R call

/-- The world and what is left of each process. -/
structure Config (ι W C : Type) (R : C → Type) where
  world : W
  procs : ι → Program C R Unit

/-- The world after a call with this answer, or `none` if the answer is impossible. -/
abbrev Kernel (ι W C : Type) (R : C → Type) := W → ι → (c : C) → R c → Option W

variable {ι W : Type} [DecidableEq ι]

/-- The runs from `start`, with the calls made so far. Each call has to satisfy `cond` in the
world in which it is made. -/
inductive Run (serve : Kernel ι W C R) (cond : W → List (Event ι C R) → Event ι C R → Prop)
    (start : Config ι W C R) : List (Event ι C R) → Config ι W C R → Prop
  | refl : Run serve cond start [] start
  | loop {tr : List (Event ι C R)} {w : W} {procs : ι → Program C R Unit} (i : ι) {β σ : Type}
      {body : σ → Program C R (σ ⊕ β)} {s : σ} {next : β → Program C R Unit}
      (hrun : Run serve cond start tr ⟨w,procs⟩) (hi : procs i = .loop body s next) :
      Run serve cond start tr ⟨w,Function.update procs i (unfold body s next)⟩
  | call {tr : List (Event ι C R)} {w w' : W} {procs : ι → Program C R Unit} (i : ι) {c : C}
      {next : R c → Program C R Unit} (r : R c) (hrun : Run serve cond start tr ⟨w,procs⟩)
      (hi : procs i = .call c next) (hserve : serve w i c r = some w') (hcond : cond w tr ⟨i,c,r⟩) :
      Run serve cond start (tr ++ [⟨i,c,r⟩]) ⟨w',Function.update procs i (next r)⟩

/-- No condition on the calls. -/
def anyCall : W → List (Event ι C R) → Event ι C R → Prop := fun _ _ _ => True

variable {serve : Kernel ι W C R} {cond : W → List (Event ι C R) → Event ι C R → Prop}
  {start c : Config ι W C R} {tr : List (Event ι C R)}

theorem Run.weaken_of_serve {cond' : W → List (Event ι C R) → Event ι C R → Prop}
    (h : ∀ w tr e w', serve w e.pid e.call e.answer = some w' → cond w tr e → cond' w tr e)
    (hrun : Run serve cond start tr c) : Run serve cond' start tr c := by
  induction hrun with
  | refl => exact .refl
  | loop i _ hi ih => exact .loop i ih hi
  | call i r _ hi hserve hcond ih => exact .call i r ih hi hserve (h _ _ ⟨i,_,r⟩ _ hserve hcond)

/-- What all calls of a run satisfy may be taken as the condition. -/
theorem Run.of_forall {ok : Event ι C R → Prop} (hrun : Run serve cond start tr c)
    (hok : ∀ e ∈ tr, ok e) :
    Run serve (fun w tr e => cond w tr e ∧ ok e) start tr c := by
  induction hrun with
  | refl => exact .refl
  | loop i _ hi ih => exact .loop i (ih hok) hi
  | call i r _ hi hserve hcond ih =>
    exact .call i r (ih fun e he => hok e (List.mem_append_left _ he)) hi hserve
      ⟨hcond,hok _ (List.mem_append_right _ (List.mem_singleton_self _))⟩

def worldAfter (serve : Kernel ι W C R) : W → List (Event ι C R) → Option W
  | w, [] => some w
  | w, e :: es => (serve w e.pid e.call e.answer).bind fun w => worldAfter serve w es

omit [DecidableEq ι] in
theorem worldAfter_snoc (w : W) (e : Event ι C R) : worldAfter serve w (tr ++ [e]) =
    (worldAfter serve w tr).bind fun w => serve w e.pid e.call e.answer := by
  induction tr generalizing w with
  | nil => simp [worldAfter]
  | cons d tr ih =>
    simp only [List.cons_append,worldAfter]
    cases serve w d.pid d.call d.answer with
    | none => rfl
    | some w => exact ih w

theorem Run.world_eq (hrun : Run serve cond start tr c) :
    worldAfter serve start.world tr = some c.world := by
  induction hrun with
  | refl => rfl
  | loop i _ hi ih => exact ih
  | call i r _ hi hserve hcond ih =>
    rw [worldAfter_snoc,ih]
    exact hserve

/-- Every call of a run was made at the end of a run, and satisfied the condition there. -/
theorem Run.before {tr' tr'' : List (Event ι C R)} {e : Event ι C R}
    (hrun : Run serve cond start tr c) (htr : tr = tr' ++ e :: tr'') :
    ∃ c' next, Run serve cond start tr' c' ∧ c'.procs e.pid = .call e.call next ∧
      cond c'.world tr' e := by
  induction hrun generalizing tr'' with
  | refl => exact absurd htr (by simp)
  | loop i _ hi ih => exact ih htr
  | @call tr w w' procs i c next r hrun hi hserve hcond ih =>
    rcases List.eq_nil_or_concat tr'' with rfl | ⟨tr'',e',rfl⟩
    · obtain ⟨rfl,he⟩ := List.append_inj' htr rfl
      obtain rfl := List.head_eq_of_cons_eq he
      exact ⟨_,next,hrun,hi,hcond⟩
    · rw [List.concat_eq_append,← List.cons_append,← List.append_assoc] at htr
      exact ih (List.append_inj' htr rfl).1

omit [DecidableEq ι] in
/-- If no `late` call comes after an `early` one, then also with one more call that is not late
after an early one. -/
theorem not_after_snoc {early late : Event ι C R → Bool} {e : Event ι C R}
    (h : ∀ pre d, pre ++ [d] <+: tr → late d → ∀ x ∈ pre, early x = false)
    (he : late e → ¬ ∃ x ∈ tr, early x) (pre : List (Event ι C R)) (d : Event ι C R)
    (hpre : pre ++ [d] <+: tr ++ [e]) (hd : late d) : ∀ x ∈ pre, early x = false := by
  rcases List.prefix_concat_iff.mp hpre with heq | hpre
  · obtain ⟨rfl,hde⟩ := List.append_inj' heq rfl
    obtain rfl : d = e := by simpa using hde
    intro x hx
    by_contra hearly
    exact he hd ⟨x,hx,by simpa using hearly⟩
  · exact h pre d hpre hd

variable {A : ι → Type}

def after (P : (i : ι) → Protocol C R (A i)) (a : (i : ι) → A i) (tr : List (Event ι C R)) :
    (i : ι) → A i :=
  tr.foldl (fun a e => Function.update a e.pid ((P e.pid).next (a e.pid) e.call e.answer)) a

variable {P : (i : ι) → Protocol C R (A i)} {a : (i : ι) → A i}

@[simp] theorem after_nil : after P a [] = a := rfl

@[simp] theorem after_snoc (e : Event ι C R) : after P a (tr ++ [e]) = Function.update (after P a tr)
    e.pid ((P e.pid).next (after P a tr e.pid) e.call e.answer) := by
  simp [after]

/-- The invariant rule: what holds at the start and is kept by every call that the protocols
allow holds in every run, and all programs go on keeping to their protocols. -/
theorem Run.invariant {I : W → List (Event ι C R) → Prop} (hrun : Run serve cond start tr c)
    (hstart : I start.world []) (hfollows : ∀ i, (start.procs i).Follows (P i) (a i) fun _ _ => True)
    (hstep : ∀ w tr i c r w', I w tr → (P i).allows (after P a tr i) c → serve w i c r = some w' →
      cond w tr ⟨i,c,r⟩ → (P i).answers (after P a tr i) c r ∧ I w' (tr ++ [⟨i,c,r⟩])) :
    I c.world tr ∧ ∀ i, (c.procs i).Follows (P i) (after P a tr i) fun _ _ => True := by
  induction hrun with
  | refl => exact ⟨hstart,hfollows⟩
  | @loop tr w procs i _ _ body s next _ hi ih =>
    obtain ⟨hI,hall⟩ := ih
    refine ⟨hI,fun j => ?_⟩
    by_cases hj : j = i
    · subst hj
      have h := hall j
      simp only [hi] at h
      simpa using h.unfold
    · simpa [hj] using hall j
  | @call tr w w' procs i c next r _ hi hserve hcond ih =>
    obtain ⟨hI,hall⟩ := ih
    have h := hall i
    simp only [hi,Follows] at h
    obtain ⟨hanswer,hI'⟩ := hstep w tr i c r w' hI h.1 hserve hcond
    refine ⟨hI',fun j => ?_⟩
    rw [after_snoc]
    by_cases hj : j = i
    · subst hj
      simpa using h.2 r hanswer
    · simpa [hj] using hall j

theorem Run.allowed {tr' tr'' : List (Event ι C R)} {e : Event ι C R}
    (hrun : Run serve cond start tr c)
    (hfollows : ∀ i, (start.procs i).Follows (P i) (a i) fun _ _ => True)
    (hanswers : ∀ i s c r, (P i).answers s c r) (htr : tr = tr' ++ e :: tr'') :
    (P e.pid).allows (after P a tr' e.pid) e.call := by
  obtain ⟨c',next,hrun',hi,_⟩ := hrun.before htr
  have hall := (hrun'.invariant (I := fun _ _ => True) trivial hfollows
    fun _ _ _ _ _ _ _ _ _ _ => ⟨hanswers _ _ _ _,trivial⟩).2 e.pid
  rw [hi] at hall
  exact hall.1

/-- Loops at the front of a program are unfolded. -/
inductive Unrolls : Program C R Unit → Program C R Unit → Prop
  | refl (p : Program C R Unit) : Unrolls p p
  | loop {β σ : Type} {body : σ → Program C R (σ ⊕ β)} {s : σ} {next : β → Program C R Unit}
      {p : Program C R Unit} (h : Unrolls (unfold body s next) p) : Unrolls (.loop body s next) p

theorem Run.unrolls {w : W} {procs : ι → Program C R Unit} {i : ι} {p : Program C R Unit}
    (hrun : Run serve cond start tr ⟨w,procs⟩) (h : Unrolls (procs i) p) :
    Run serve cond start tr ⟨w,Function.update procs i p⟩ := by
  generalize hi : procs i = q at h
  induction h generalizing procs with
  | refl => simpa [← hi] using hrun
  | loop _ ih => simpa using ih (hrun.loop i hi) (Function.update_self _ _ _)

def keptFrom (keep : List (Event ι C R) → Event ι C R → Bool) :
    List (Event ι C R) → List (Event ι C R) → List (Event ι C R)
  | _, [] => []
  | pre, e :: es => (if keep pre e then [e] else []) ++ keptFrom keep (pre ++ [e]) es

def kept (keep : List (Event ι C R) → Event ι C R → Bool) (tr : List (Event ι C R)) :
    List (Event ι C R) :=
  keptFrom keep [] tr

omit [DecidableEq ι] in
theorem keptFrom_snoc (keep : List (Event ι C R) → Event ι C R → Bool) (pre : List (Event ι C R))
    (e : Event ι C R) :
    keptFrom keep pre (tr ++ [e]) = keptFrom keep pre tr ++ if keep (pre ++ tr) e then [e] else
      [] := by
  induction tr generalizing pre with
  | nil => simp [keptFrom]
  | cons d tr ih => simp [keptFrom,ih]

omit [DecidableEq ι] in
theorem kept_snoc (keep : List (Event ι C R) → Event ι C R → Bool) (e : Event ι C R) :
    kept keep (tr ++ [e]) = kept keep tr ++ if keep tr e then [e] else [] :=
  keptFrom_snoc keep [] e

/-- A process that makes all the calls of another one, except for those that are dropped and leave
the world as it is. -/
structure Dropping (serve : Kernel ι W C R) (cond : W → List (Event ι C R) → Event ι C R → Prop)
    (keep : List (Event ι C R) → Event ι C R → Bool)
    (Rel : List (Event ι C R) → ι → Program C R Unit → Program C R Unit → Prop) : Prop where
  other : ∀ {tr e i p p'}, Rel tr i p p' → e.pid ≠ i → Rel (tr ++ [e]) i p p'
  loop : ∀ {tr i} {β σ : Type} {body : σ → Program C R (σ ⊕ β)} {s next p'},
    Rel tr i (.loop body s next) p' → ∃ p'', Unrolls p' p'' ∧ Rel tr i (unfold body s next) p''
  kept : ∀ {tr i c next p' w r w'}, Rel tr i (.call c next) p' → serve w i c r = some w' →
    cond w tr ⟨i,c,r⟩ → keep tr ⟨i,c,r⟩ = true →
      ∃ next', Unrolls p' (.call c next') ∧ Rel (tr ++ [⟨i,c,r⟩]) i (next r) (next' r)
  dropped : ∀ {tr i c next p' w r w'}, Rel tr i (.call c next) p' → serve w i c r = some w' →
    cond w tr ⟨i,c,r⟩ → keep tr ⟨i,c,r⟩ = false → w' = w ∧
      ∃ p'', Unrolls p' p'' ∧ Rel (tr ++ [⟨i,c,r⟩]) i (next r) p''

/-- The simulation rule: without the calls that are dropped the run is one of the other system. -/
theorem Run.drop {keep : List (Event ι C R) → Event ι C R → Bool}
    {Rel : List (Event ι C R) → ι → Program C R Unit → Program C R Unit → Prop}
    (hdrop : Dropping serve cond keep Rel) {procs' : ι → Program C R Unit}
    (hrun : Run serve cond start tr c) (hstart : ∀ i, Rel [] i (start.procs i) (procs' i)) :
    ∃ procs'', Run serve anyCall ⟨start.world,procs'⟩ (kept keep tr) ⟨c.world,procs''⟩ ∧
      ∀ i, Rel tr i (c.procs i) (procs'' i) := by
  induction hrun with
  | refl => exact ⟨procs',.refl,hstart⟩
  | @loop tr w procs i _ _ body s next _ hi ih =>
    obtain ⟨procs'',hrun',hrel⟩ := ih
    have hold := hrel i
    simp only [hi] at hold
    obtain ⟨p,hunrolls,hnew⟩ := hdrop.loop hold
    refine ⟨_,hrun'.unrolls hunrolls,fun j => ?_⟩
    by_cases hj : j = i
    · subst hj
      simpa using hnew
    · simpa [hj] using hrel j
  | @call tr w w' procs i c next r _ hi hserve hcond ih =>
    obtain ⟨procs'',hrun',hrel⟩ := ih
    have hold := hrel i
    simp only [hi] at hold
    rw [kept_snoc]
    cases hkeep : keep tr ⟨i,c,r⟩ with
    | true =>
      obtain ⟨next',hunrolls,hnew⟩ := hdrop.kept hold hserve hcond hkeep
      have hcall := (hrun'.unrolls hunrolls).call i r (Function.update_self _ _ _) hserve trivial
      rw [Function.update_idem] at hcall
      refine ⟨_,hcall,fun j => ?_⟩
      by_cases hj : j = i
      · subst hj
        simpa using hnew
      · simpa [hj] using hdrop.other (hrel j) (Ne.symm hj)
    | false =>
      obtain ⟨rfl,p,hunrolls,hnew⟩ := hdrop.dropped hold hserve hcond hkeep
      refine ⟨_,by simpa using hrun'.unrolls hunrolls,fun j => ?_⟩
      by_cases hj : j = i
      · subst hj
        simpa using hnew
      · simpa [hj] using hdrop.other (hrel j) (Ne.symm hj)

/-- Unfold loops at the front of a program, a bounded number of times. -/
def settle : ℕ → Program C R Unit → Program C R Unit
  | n+1, .loop body s next => settle n (unfold body s next)
  | _, p => p

/-- Let the processes make the calls of a schedule. -/
def exec [DecidableEq C] (serve : Kernel ι W C R) :
    Config ι W C R → List (Event ι C R) → Option (Config ι W C R)
  | c, [] => some c
  | ⟨w,procs⟩, e :: es =>
    match settle 8 (procs e.pid) with
    | .call c next =>
      if h : e.call = c then
        match serve w e.pid c (h ▸ e.answer) with
        | some w' => exec serve ⟨w',Function.update procs e.pid (next (h ▸ e.answer))⟩ es
        | none => none
      else none
    | _ => none

/-- Every call of a schedule satisfies `cond`, whatever the world. -/
def Complies (cond : W → List (Event ι C R) → Event ι C R → Prop) :
    List (Event ι C R) → List (Event ι C R) → Prop
  | _, [] => True
  | tr, e :: es => (∀ w, cond w tr e) ∧ Complies cond (tr ++ [e]) es

/-- Every call of a schedule satisfies `cond` in the world that the calls before it made. -/
def Obeys (serve : Kernel ι W C R) (cond : W → List (Event ι C R) → Event ι C R → Prop) :
    W → List (Event ι C R) → List (Event ι C R) → Prop
  | _, _, [] => True
  | w, tr, e :: es => cond w tr e ∧
    (serve w e.pid e.call e.answer).elim True fun w => Obeys serve cond w (tr ++ [e]) es

instance Obeys.decide [∀ w tr e, Decidable (cond w tr e)] : (w : W) → (tr es : List (Event ι C R)) →
    Decidable (Obeys serve cond w tr es)
  | _, _, [] => isTrue trivial
  | w, tr, e :: es =>
    have : Decidable ((serve w e.pid e.call e.answer).elim True fun w => Obeys serve cond w
        (tr ++ [e]) es) :=
      match serve w e.pid e.call e.answer with
      | some w => Obeys.decide w (tr ++ [e]) es
      | none => isTrue trivial
    instDecidableAnd

omit [DecidableEq ι] in
theorem Complies.obeys {w : W} {es : List (Event ι C R)} (h : Complies cond tr es) :
    Obeys serve cond w tr es := by
  induction es generalizing w tr with
  | nil => trivial
  | cons e es ih =>
    refine ⟨h.1 w,?_⟩
    cases serve w e.pid e.call e.answer with
    | none => trivial
    | some w => exact ih h.2

omit [DecidableEq ι] in
theorem complies_anyCall (es : List (Event ι C R)) :
    Complies (anyCall : W → List (Event ι C R) → Event ι C R → Prop) tr es := by
  induction es generalizing tr with
  | nil => trivial
  | cons e es ih => exact ⟨fun _ => trivial,ih⟩

theorem Run.settle {w : W} {procs : ι → Program C R Unit} (n : ℕ) (i : ι)
    (hrun : Run serve cond start tr ⟨w,procs⟩) :
    Run serve cond start tr ⟨w,Function.update procs i (Program.settle n (procs i))⟩ := by
  induction n generalizing procs with
  | zero => simpa [Program.settle] using hrun
  | succ n ih =>
    cases hi : procs i with
    | ret x => simpa [Program.settle,← hi] using hrun
    | call c next => simpa [Program.settle,← hi] using hrun
    | loop body s next => simpa [Program.settle] using ih (hrun.loop i hi)

/-- A schedule that can be executed is a run. -/
theorem Run.obey [DecidableEq C] {es : List (Event ι C R)} {c c' : Config ι W C R}
    (hrun : Run serve cond start tr c) (hcond : Obeys serve cond c.world tr es)
    (hexec : Program.exec serve c es = some c') : Run serve cond start (tr ++ es) c' := by
  induction es generalizing tr c with
  | nil =>
    obtain rfl := Option.some.inj hexec
    simpa using hrun
  | cons e es ih =>
    obtain ⟨w,procs⟩ := c
    obtain ⟨i,c,answer⟩ := e
    have hsettled := hrun.settle 8 i
    simp only [Program.exec] at hexec
    split at hexec
    · next c' next hcall =>
      split at hexec
      · next h =>
        subst h
        split at hexec
        · next w' hserve =>
          rw [hcall] at hsettled
          have hnext := hsettled.call i answer (Function.update_self _ _ _) hserve hcond.1
          rw [Function.update_idem] at hnext
          have hrest := hcond.2
          simp only [hserve,Option.elim_some] at hrest
          simpa using ih hnext hrest hexec
        · exact absurd hexec (by simp)
      · exact absurd hexec (by simp)
    · exact absurd hexec (by simp)

theorem Run.exec [DecidableEq C] {es : List (Event ι C R)} {c c' : Config ι W C R}
    (hrun : Run serve cond start tr c) (hcond : Complies cond tr es)
    (hexec : Program.exec serve c es = some c') : Run serve cond start (tr ++ es) c' :=
  hrun.obey hcond.obeys hexec

end Program
end LixRtos
