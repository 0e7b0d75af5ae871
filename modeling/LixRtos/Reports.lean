import LixRtos.Interleaving

/-! Processes that run operation after operation and report the result of each one. -/
namespace LixRtos

namespace Program

variable {C D : Type} {R : C → Type} {S : D → Type} {A : Type}

/-- A protocol beside which the calls since the last report are written down; a report is allowed
if it is `ok` for these calls. -/
def Protocol.reported (P : Protocol C R A) (a : A) (ok : List (Exchange C R) → D → Prop) :
    Protocol (C ⊕ D) (Sum.elim R S) (A × List (Exchange C R)) where
  allows
    | b, .inl c => P.allows b.1 c
    | b, .inr d => ok b.2 d
  answers
    | b, .inl c, r => P.answers b.1 c r
    | _, .inr _, _ => True
  next
    | b, .inl c, r => (P.next b.1 c r,b.2 ++ [⟨c,r⟩])
    | _, .inr _, _ => (a,[])

theorem Follows.reported {P : Protocol C R A} {a b : A} {ok : List (Exchange C R) → D → Prop}
    {α : Type}
    {p : Program C R α} {seen : List (Exchange C R)} {post : A × List (Exchange C R) → α → Prop}
    (h : p.Follows P.logged (b,seen) post) :
    p.extend.Follows (P.reported (S := S) a ok) (b,seen) post :=
  Follows.extend (P := P.reported (S := S) a ok) h

/-- An operation that has been reported, with its calls. -/
structure Reported (C : Type) (R : C → Type) (D : Type) where
  log : List (Exchange C R)
  report : D

/-- The operations of a process: those it has reported, and the calls since then. -/
structure Ledger (C : Type) (R : C → Type) (D : Type) where
  done : List (Reported C R D)
  pending : List (Exchange C R)

variable {ι : Type} [DecidableEq ι]

def Ledger.enter (i : ι) (l : Ledger C R D) : Event ι (C ⊕ D) (Sum.elim R S) → Ledger C R D
  | ⟨j,.inl c,r⟩ => if j = i then { l with pending := l.pending ++ [⟨c,r⟩] } else l
  | ⟨j,.inr d,_⟩ => if j = i then ⟨l.done ++ [⟨l.pending,d⟩],[]⟩ else l

def ledger (tr : List (Event ι (C ⊕ D) (Sum.elim R S))) (i : ι) : Ledger C R D :=
  tr.foldl (Ledger.enter i) ⟨[],[]⟩

def Ledger.calls (l : Ledger C R D) : List (Exchange C R) := l.done.flatMap Reported.log ++ l.pending

variable {tr : List (Event ι (C ⊕ D) (Sum.elim R S))}

theorem ledger_snoc (e : Event ι (C ⊕ D) (Sum.elim R S)) (i : ι) :
    ledger (tr ++ [e]) i = (ledger tr i).enter i e := by
  simp [ledger]

@[simp] theorem ledger_of_ne {e : Event ι (C ⊕ D) (Sum.elim R S)} {i : ι} (h : e.pid ≠ i) :
    ledger (tr ++ [e]) i = ledger tr i := by
  rw [ledger_snoc]
  obtain ⟨j,c | d,r⟩ := e <;> exact if_neg h

@[simp] theorem ledger_call (tr : List (Event ι (C ⊕ D) (Sum.elim R S))) (i : ι) (c : C) (r : R c) :
    ledger (tr ++ [⟨i,.inl c,r⟩]) i =
      { ledger tr i with pending := (ledger tr i).pending ++ [⟨c,r⟩] } := by
  rw [ledger_snoc]
  exact if_pos rfl

@[simp] theorem ledger_report (tr : List (Event ι (C ⊕ D) (Sum.elim R S))) (i : ι) (d : D) (r : S d) :
    ledger (tr ++ [⟨i,.inr d,r⟩]) i = ⟨(ledger tr i).done ++ [⟨(ledger tr i).pending,d⟩],[]⟩ := by
  rw [ledger_snoc]
  exact if_pos rfl

theorem Ledger.log_subset {l : Ledger C R D} {d : Reported C R D} (hd : d ∈ l.done) {e : Exchange C R}
    (he : e ∈ d.log) : e ∈ l.calls :=
  List.mem_append_left _ (List.mem_flatMap.mpr ⟨d,hd,he⟩)

theorem calls_call (tr : List (Event ι (C ⊕ D) (Sum.elim R S))) (i : ι) (c : C) (r : R c) :
    (ledger (tr ++ [⟨i,.inl c,r⟩]) i).calls = (ledger tr i).calls ++ [⟨c,r⟩] := by
  simp [Ledger.calls]

theorem calls_report (tr : List (Event ι (C ⊕ D) (Sum.elim R S))) (i : ι) (d : D) (r : S d) :
    (ledger (tr ++ [⟨i,.inr d,r⟩]) i).calls = (ledger tr i).calls := by
  simp [Ledger.calls]

variable {W : Type} {serve : Kernel ι W (C ⊕ D) (Sum.elim R S)}
  {cond : W → List (Event ι (C ⊕ D) (Sum.elim R S)) → Event ι (C ⊕ D) (Sum.elim R S) → Prop}
  {start c : Config ι W (C ⊕ D) (Sum.elim R S)} {P : ι → Protocol C R A} {a : ι → A}
  {ok : ι → List (Exchange C R) → D → Prop}

/-- Where the world answers as the protocols say and leaves their states as they are, every report
of a run is `ok`. -/
theorem Run.reports (hrun : Run serve cond start tr c)
    (hfollows : ∀ i, (start.procs i).Follows ((P i).reported (a i) (ok i)) (a i,[]) fun _ _ => True)
    (hstill : ∀ w i c r w', serve w i (.inl c) r = some w' →
      (P i).answers (a i) c r ∧ (P i).next (a i) c r = a i) :
    ∀ i, ∀ d ∈ (ledger tr i).done, ok i d.log d.report := by
  let Q (i : ι) : Protocol (C ⊕ D) (Sum.elim R S) (A × List (Exchange C R)) :=
    (P i).reported (a i) (ok i)
  have hinv := (hrun.invariant (P := Q) (a := fun i => (a i,[])) (I := fun _ tr => ∀ i,
    after Q (fun i => (a i,[])) tr i = (a i,(ledger tr i).pending) ∧
      ∀ d ∈ (ledger tr i).done, ok i d.log d.report) ?_ hfollows ?_).1
  · exact fun i => (hinv i).2
  · exact fun i => ⟨rfl,fun _ hd => absurd hd List.not_mem_nil⟩
  · intro w tr i c r w' inv hallows hserve _
    have hi := (inv i).1
    rw [hi] at hallows ⊢
    have hothers {e : Event ι (C ⊕ D) (Sum.elim R S)} {j : ι} (hj : e.pid ≠ j) :
        after Q (fun i => (a i,[])) (tr ++ [e]) j = (a j,(ledger (tr ++ [e]) j).pending) ∧
          ∀ d ∈ (ledger (tr ++ [e]) j).done, ok j d.log d.report := by
      rw [after_snoc,Function.update_of_ne (Ne.symm hj),ledger_of_ne hj]
      exact inv j
    rcases c with c | d
    · obtain ⟨hanswers,hnext⟩ := hstill w i c r w' hserve
      refine ⟨hanswers,fun j => ?_⟩
      by_cases hj : i = j
      · subst hj
        have hledger : ledger (tr ++ [⟨i,.inl c,r⟩]) i =
          { ledger tr i with pending := (ledger tr i).pending ++ [⟨c,r⟩] } := ledger_call tr i c r
        rw [after_snoc,Function.update_self,hledger]
        simp only [hi]
        exact ⟨Prod.ext hnext rfl,(inv i).2⟩
      · exact hothers hj
    · refine ⟨trivial,fun j => ?_⟩
      by_cases hj : i = j
      · subst hj
        have hledger : ledger (tr ++ [⟨i,.inr d,r⟩]) i =
          ⟨(ledger tr i).done ++ [⟨(ledger tr i).pending,d⟩],[]⟩ := ledger_report tr i d r
        rw [after_snoc,Function.update_self,hledger]
        refine ⟨rfl,fun d' hd' => ?_⟩
        rcases List.mem_append.mp hd' with hd' | hd'
        · exact (inv i).2 d' hd'
        · rw [List.mem_singleton.mp hd']
          exact hallows
      · exact hothers hj

end Program
end LixRtos
