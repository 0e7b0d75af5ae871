import LixRtos.Notes

/-! Processes that carry out tasks one after the other, where every task is a critical section of
one lock. Whatever the order of the calls, the tasks take effect one at a time. -/
namespace LixRtos
namespace Program

variable {C : Type} {R : C → Type} {A α β : Type}

/-- After these exchanges the program makes this call. -/
inductive NextCall : {α : Type} → Program C R α → List (Exchange C R) → C → Prop
  | now {α : Type} {c : C} {next : R c → Program C R α} : NextCall (.call c next) [] c
  | call {α : Type} {c c' : C} {next : R c → Program C R α} {t : List (Exchange C R)} (r : R c)
      (h : NextCall (next r) t c') : NextCall (.call c next) (⟨c,r⟩ :: t) c'
  | loop {α β σ : Type} {body : σ → Program C R (σ ⊕ β)} {s : σ} {next : β → Program C R α}
      {t : List (Exchange C R)} {c : C} (h : NextCall (unfold body s next) t c) :
      NextCall (.loop body s next) t c

variable {t t' : List (Exchange C R)} {c : C} {ok : C → Prop}

theorem NextCall.bind {p : Program C R α} {f : α → Program C R β} (h : p.NextCall t c) :
    (p.bind f).NextCall t c := by
  induction h with
  | now => exact .now
  | call r _ ih => exact .call r ih
  | loop _ ih =>
    refine .loop ?_
    rw [← unfold_bind]
    exact ih

theorem Yields.nextCall {p : Program C R α} {f : α → Program C R β} {x : α} (h : p.Yields t x)
    (hf : (f x).NextCall t' c) : (p.bind f).NextCall (t ++ t') c := by
  induction h with
  | ret x => exact hf
  | call r _ ih => exact .call r (ih hf)
  | loop _ ih =>
    refine .loop ?_
    rw [← unfold_bind]
    exact ih hf

theorem Follows.allowed {P : Protocol C R A} {a : A} {p : Program C R α} {post : A → α → Prop}
    (h : p.Follows P a post) (hc : p.NextCall t c) (hacc : P.Accepts a t) :
    P.allows (P.final a t) c := by
  induction hc generalizing a with
  | now => exact h.1
  | call r _ ih => exact ih (h.2 r hacc.1) hacc.2
  | loop _ ih => exact ih h.unfold hacc

/-- A protocol that records the exchanges of a part of the program `q`, behind the exchanges `t`,
knows a run of this part at its end, and the next call of `q` before. -/
theorem Only.tracked {p : Program C R α} {q : Program C R β} (P : Protocol C R A)
    (state : List (Exchange C R) → A) (hallows : ∀ t c, ok c → q.NextCall t c → P.allows (state t) c)
    (hnext : ∀ t c r, ok c → P.next (state t) c r = state (t ++ [⟨c,r⟩])) (h : p.Only ok)
    (hq : ∀ t' c, p.NextCall t' c → q.NextCall (t ++ t') c) :
    p.Follows P (state t) fun a x => ∃ t', a = state (t ++ t') ∧ p.Yields t' x := by
  induction p generalizing t with
  | ret x => exact ⟨[],by rw [List.append_nil],.ret x⟩
  | call c next ih =>
    have hnow : q.NextCall t c := by simpa using hq [] c .now
    refine ⟨hallows t c h.1 hnow,fun r _ => ?_⟩
    rw [hnext t c r h.1]
    have hrest (t' : List (Exchange C R)) (c' : C) (hc : (next r).NextCall t' c') :
        q.NextCall (t ++ [⟨c,r⟩] ++ t') c' := by
      rw [List.append_assoc]
      exact hq _ _ (.call r hc)
    apply (ih r (h.2 r) hrest).mono
    rintro _ x ⟨t',rfl,hy⟩
    exact ⟨⟨c,r⟩ :: t',by simp,.call r hy⟩
  | loop body s next ihb ihn =>
    -- what the turns so far are continued by are runs and calls of the whole loop
    refine ⟨fun a s' => ∃ t₁, a = state (t ++ t₁) ∧ (∀ t₂ x, (loop body s' next).Yields t₂ x →
      (loop body s next).Yields (t₁ ++ t₂) x) ∧ ∀ t₂ c, (loop body s' next).NextCall t₂ c →
        (loop body s next).NextCall (t₁ ++ t₂) c,
      ⟨[],by rw [List.append_nil],fun _ _ hy => hy,fun _ _ hc => hc⟩,?_⟩
    rintro _ s' ⟨t₁,rfl,hruns,hcalls⟩
    have hturn (t' : List (Exchange C R)) (c : C) (hc : (body s').NextCall t' c) :
        q.NextCall (t ++ t₁ ++ t') c := by
      rw [List.append_assoc]
      exact hq _ _ (hcalls _ _ (.loop hc.bind))
    apply (ihb s' (h.1 s') hturn).mono
    rintro _ (s'' | b) ⟨t₂,rfl,hy⟩
    · refine ⟨t₁ ++ t₂,by rw [List.append_assoc],fun t₃ x hy' => ?_,fun t₃ c hc => ?_⟩
      · rw [List.append_assoc]
        exact hruns _ _ (.loop (hy.bind hy'))
      · rw [List.append_assoc]
        exact hcalls _ _ (.loop (hy.nextCall hc))
    · have hrest (t' : List (Exchange C R)) (c : C) (hc : (next b).NextCall t' c) :
          q.NextCall (t ++ t₁ ++ t₂ ++ t') c := by
        rw [List.append_assoc,List.append_assoc]
        exact hq _ _ (hcalls _ _ (.loop (hy.nextCall hc)))
      apply (ihn b (h.2 b) hrest).mono
      rintro _ x ⟨t₃,rfl,hy'⟩
      exact ⟨t₁ ++ (t₂ ++ t₃),by simp,hruns _ _ (.loop (hy.bind hy'))⟩

/-- A process notes when it begins a task, and the result at its end. -/
inductive TaskNote (β : Type)
  | called (n : ℕ)
  | returned (n : ℕ) (result : β)
  deriving DecidableEq

abbrev TaskCall (C β : Type) := C ⊕ TaskNote β

abbrev TaskAnswer (R : C → Type) (β : Type) : TaskCall C β → Type := NotedAnswer R (TaskNote β)

/-- One task after the other. -/
def worker (tasks : ℕ → Program C R β) : Program (TaskCall C β) (TaskAnswer R β) Unit :=
  iterate (fun n : ℕ => do
    note (.called n)
    let x ← noted (tasks n)
    note (.returned n x)
    pure (.inl (n+1))) 0

/-- A program that takes the lock, calls neither it nor its release, and releases it. -/
def IsSection (lock unlock : C) (p : Program C R β) : Prop :=
  ∃ body : Program C R β, body.Only (fun c => c ≠ lock ∧ c ≠ unlock) ∧
    p = .call lock fun _ => body.bind fun x => .call unlock fun _ => .ret x

/-- Where a process is: between tasks, before the lock, in the section or behind it. From the lock
on the exchanges of the task are recorded. -/
inductive TaskPhase (C : Type) (R : C → Type)
  | idle (n : ℕ)
  | begun (n : ℕ)
  | inside (n : ℕ) (t : List (Exchange C R))
  | left (n : ℕ) (t : List (Exchange C R))

/-- The calls of a process whose tasks are sections of the lock: in its section it makes those of
its task. -/
def sectioned [DecidableEq C] (lock unlock : C) (tasks : ℕ → Program C R β) :
    Protocol (TaskCall C β) (TaskAnswer R β) (TaskPhase C R) where
  allows
    | .idle n, .inr (.called m) => m = n
    | .begun _, .inl c => c = lock
    | .inside n t, .inl c => (tasks n).NextCall t c ∧
      (c ≠ lock ∧ c ≠ unlock ∨ c = unlock ∧ ∀ r, ∃ x, (tasks n).Yields (t ++ [⟨c,r⟩]) x)
    | .left n t, .inr (.returned m x) => m = n ∧ (tasks n).Yields t x
    | _, _ => False
  answers
    | _, .inr (.called n), _ => (tasks n).IsSection lock unlock
    | _, _, _ => True
  next
    | .idle n, .inr (.called _), _ => .begun n
    | .begun n, .inl c, r => .inside n [⟨c,r⟩]
    | .inside n t, .inl c, r => if c = unlock then .left n (t ++ [⟨c,r⟩]) else .inside n (t ++ [⟨c,r⟩])
    | .left n _, .inr (.returned _ _), _ => .idle (n+1)
    | s, _, _ => s

variable {lock unlock : C} {tasks : ℕ → Program C R β}

/-- A task that is a section ends with the exchanges of one of its runs. -/
theorem IsSection.follows [DecidableEq C] {n : ℕ} (h : (tasks n).IsSection lock unlock) :
    (tasks n).Follows (sectioned lock unlock tasks).unnoted (.begun n)
      fun a x => ∃ t, a = .left n t ∧ (tasks n).Yields t x := by
  obtain ⟨body,hcalls,htask⟩ := h
  have hyields {t : List (Exchange C R)} {x : β} (hy : body.Yields t x) (r : R lock) (r' : R unlock) :
      (tasks n).Yields ([⟨lock,r⟩] ++ t ++ [⟨unlock,r'⟩]) x := by
    rw [htask,List.append_assoc]
    exact .call r (hy.bind (.call r' (.ret x)))
  have hbody (r : R lock) : body.Follows (sectioned lock unlock tasks).unnoted (.inside n [⟨lock,r⟩])
      fun a x => ∃ t, a = .inside n ([⟨lock,r⟩] ++ t) ∧ body.Yields t x := by
    refine hcalls.tracked (q := tasks n) (sectioned lock unlock tasks).unnoted (TaskPhase.inside n)
      (fun t c hc hnext => ⟨hnext,Or.inl hc⟩) (fun t c r hc => if_neg hc.2) fun t' c hc => ?_
    rw [htask]
    exact .call r hc.bind
  have hcritical : Follows (sectioned lock unlock tasks).unnoted
      (.call lock fun _ => body.bind fun x => .call unlock fun _ => .ret x) (.begun n)
      fun a x => ∃ t, a = .left n t ∧ (tasks n).Yields t x := by
    refine ⟨rfl,fun r _ => Follows.bind ((hbody r).mono ?_)⟩
    rintro _ x ⟨t,rfl,hy⟩
    have hnow : (tasks n).NextCall ([⟨lock,r⟩] ++ t) unlock := by
      rw [htask,← List.append_nil t]
      exact .call r (hy.nextCall .now)
    exact ⟨⟨hnow,Or.inr ⟨rfl,fun r' => ⟨x,hyields hy r r'⟩⟩⟩,fun r' _ =>
      ⟨_,if_pos rfl,hyields hy r r'⟩⟩
  rw [← htask] at hcritical
  exact hcritical

theorem worker_follows [DecidableEq C] :
    (worker tasks).Follows (sectioned lock unlock tasks) (.idle 0) fun _ _ => True := by
  apply Follows.iterate (fun a n => a = .idle n) rfl
  rintro _ n rfl
  refine ⟨rfl,fun _ hsection => ?_⟩
  refine Follows.bind (p := noted (tasks n)) ((IsSection.follows hsection).noted.mono ?_)
  rintro _ x ⟨t,rfl,hy⟩
  exact ⟨⟨rfl,hy⟩,fun _ _ => rfl⟩

variable {ι W : Type}

/-- The world has a lock that one process holds at a time, and only its calls change the holder. -/
structure Locking (serve : Kernel ι W C R) (holder : W → Option ι) (lock unlock : C) : Prop where
  acquires : ∀ {w i r w'}, serve w i lock r = some w' → holder w = none ∧ holder w' = some i
  releases : ∀ {w i r w'}, serve w i unlock r = some w' → holder w' = none
  keeps : ∀ {w i c r w'}, c ≠ lock → c ≠ unlock → serve w i c r = some w' → holder w' = holder w

abbrev TaskEvent (ι C : Type) (R : C → Type) (β : Type) := Event ι (TaskCall C β) (TaskAnswer R β)

structure Completed (ι β : Type) where
  pid : ι
  task : ℕ
  result : β
  deriving DecidableEq

def completion (e : TaskEvent ι C R β) : Option (Completed ι β) :=
  match e.call with
  | .inr (.returned n x) => some ⟨e.pid,n,x⟩
  | _ => none

variable [DecidableEq ι]

def completedBy (i : ι) (order : List (Completed ι β)) : List (Completed ι β) :=
  order.filter fun d => d.pid = i

def inCall (tr : List (TaskEvent ι C R β)) (i : ι) : Bool :=
  tr.foldl (fun busy e =>
    if e.pid = i then
      match e.call with
      | .inr (.called _) => true
      | .inr (.returned _ _) => false
      | .inl _ => busy
    else busy) false

def madeBy (i : ι) (t : List (Exchange C R)) : List (Event ι C R) := t.map fun e => ⟨i,e.call,e.answer⟩

/-- Every call but the lock is made by the holder of the lock, and no process holds it when a task
returns. -/
def Disciplined (serve : Kernel ι W C R) (holder : W → Option ι) (lock : C) (start : W)
    (tr : List (TaskEvent ι C R β)) : Prop :=
  ∀ before e after, tr = before ++ e :: after → ∃ w, worldAfter (Kernel.noted serve) start before =
    some w ∧
    (∀ c, e.call = .inl c → c ≠ lock → holder w = some e.pid) ∧
    ∀ n x, e.call = .inr (.returned n x) → holder w ≠ some e.pid

/-- The world after these tasks, one after the other without interruption. -/
inductive Sequential (serve : Kernel ι W C R) (tasks : ι → ℕ → Program C R β) (start : W) :
    List (Completed ι β) → W → Prop
  | nil : Sequential serve tasks start [] start
  | snoc {order : List (Completed ι β)} {w w' : W} {i : ι} {n : ℕ} {t : List (Exchange C R)} {x : β}
      (h : Sequential serve tasks start order w) (hy : (tasks i n).Yields t x)
      (hw : worldAfter serve w (madeBy i t) = some w') :
      Sequential serve tasks start (order ++ [⟨i,n,x⟩]) w'

/-- The completed tasks of a process, and one more if it has left the section but not returned. -/
def Explains (tasks : ℕ → Program C R β) (i : ι) (done ordered : List (Completed ι β)) :
    TaskPhase C R → Prop
  | .left n t => ∃ x, (tasks n).Yields t x ∧ ordered = done ++ [⟨i,n,x⟩]
  | _ => ordered = done

/-- One process: it is in its section if it holds the lock, and then the world is what its calls
make of `base`, the world after the tasks of `order`. -/
structure Placed (serve : Kernel ι W C R) (holder : W → Option ι) (tasks : ι → ℕ → Program C R β)
    (tr : List (TaskEvent ι C R β)) (order : List (Completed ι β)) (base w : W) (i : ι)
    (p : TaskPhase C R) : Prop where
  inside : holder w = some i ↔ ∃ n t, p = .inside n t
  idle : inCall tr i = false → ∃ n, p = .idle n
  explains : Explains (tasks i) i (completedBy i (tr.filterMap completion)) (completedBy i order) p
  made : ∀ n t, p = .inside n t → worldAfter serve base (madeBy i t) = some w

/-- The tasks that have left their sections took effect one after the other. -/
def Serialized (serve : Kernel ι W C R) (holder : W → Option ι) (tasks : ι → ℕ → Program C R β)
    (start w : W) (tr : List (TaskEvent ι C R β)) (ph : ι → TaskPhase C R) : Prop :=
  ∃ order base, Sequential serve tasks start order base ∧ (holder w = none → w = base) ∧
    ∀ i, Placed serve holder tasks tr order base w i (ph i)

variable {serve : Kernel ι W C R} {holder : W → Option ι} {tasks : ι → ℕ → Program C R β}
  {start base base' w w' : W} {tr : List (TaskEvent ι C R β)} {order order' : List (Completed ι β)}
  {ph : ι → TaskPhase C R} {i : ι}

theorem inCall_snoc (tr : List (TaskEvent ι C R β)) (e : TaskEvent ι C R β) (i : ι) :
    inCall (tr ++ [e]) i =
      if e.pid = i then
        match e.call with
        | .inr (.called _) => true
        | .inr (.returned _ _) => false
        | .inl _ => inCall tr i
      else inCall tr i := by
  simp [inCall]

theorem completedBy_snoc (i : ι) (order : List (Completed ι β)) (d : Completed ι β) :
    completedBy i (order ++ [d]) = completedBy i order ++ if d.pid = i then [d] else [] := by
  by_cases h : d.pid = i <;> simp [completedBy,h]

omit [DecidableEq ι] in
theorem completion_pid {e : TaskEvent ι C R β} {d : Completed ι β} (h : completion e = some d) :
    d.pid = e.pid := by
  obtain ⟨i,c,r⟩ := e
  rcases c with c | (n | ⟨n,x⟩)
  · exact absurd h nofun
  · exact absurd h nofun
  · exact Option.some.inj h ▸ rfl

theorem completedBy_event (tr : List (TaskEvent ι C R β)) (e : TaskEvent ι C R β) (i : ι) :
    completedBy i ((tr ++ [e]).filterMap completion) = completedBy i (tr.filterMap completion) ++
      if e.pid = i then (completion e).toList else [] := by
  rw [List.filterMap_append]
  cases hd : completion e with
  | none => simp [hd]
  | some d => simp [hd,completedBy_snoc,completion_pid hd]

theorem completedBy_same {e : TaskEvent ι C R β} (h : completion e = none) :
    completedBy i ((tr ++ [e]).filterMap completion) = completedBy i (tr.filterMap completion) := by
  rw [completedBy_event,h,Option.toList_none,ite_self,List.append_nil]

omit [DecidableEq ι] in
theorem worldAfter_madeBy_snoc {t : List (Exchange C R)} {c : C} {r : R c}
    (h : worldAfter serve base (madeBy i t) = some w) (hserve : serve w i c r = some w') :
    worldAfter serve base (madeBy i (t ++ [⟨c,r⟩])) = some w' := by
  rw [madeBy,List.map_append,List.map_singleton,worldAfter_snoc,← madeBy,h]
  exact hserve

theorem Placed.other {j : ι} {p : TaskPhase C R} (h : Placed serve holder tasks tr order base w j p)
    (e : TaskEvent ι C R β) (hpid : e.pid ≠ j) (hinside : holder w' = some j ↔ holder w = some j)
    (horder : completedBy j order' = completedBy j order)
    (hmade : holder w = some j → base' = base ∧ w' = w) :
    Placed serve holder tasks (tr ++ [e]) order' base' w' j p where
  inside := hinside.trans h.inside
  idle := by
    rw [inCall_snoc,if_neg hpid]
    exact h.idle
  explains := by
    rw [horder,completedBy_event,if_neg hpid,List.append_nil]
    exact h.explains
  made n t hp := by
    obtain ⟨rfl,rfl⟩ := hmade (h.inside.mpr ⟨n,t,hp⟩)
    exact h.made n t hp

theorem Serialized.move {p : TaskPhase C R} (hseq : Sequential serve tasks start order base)
    (hfree : holder w = none → w = base) (hmoved : Placed serve holder tasks tr order base w i p)
    (hothers : ∀ j, j ≠ i → Placed serve holder tasks tr order base w j (ph j)) :
    Serialized serve holder tasks start w tr (Function.update ph i p) :=
  ⟨order,base,hseq,hfree,
    (Function.forall_update_iff ph (Placed serve holder tasks tr order base w)).mpr ⟨hmoved,hothers⟩⟩

theorem Placed.busy {p q : TaskPhase C R} {c : C} {r : R c}
    (h : Placed serve holder tasks tr order base w i p)
    (hp : ∀ n, p ≠ .idle n) (hin : inCall (tr ++ [⟨i,.inl c,r⟩]) i = false) : ∃ n, q = .idle n := by
  rw [inCall_snoc,if_pos rfl] at hin
  obtain ⟨n,hn⟩ := h.idle hin
  exact absurd hn (hp n)

theorem Serialized.calls {n : ℕ} (h : Serialized serve holder tasks start w tr ph)
    (hph : ph i = .idle n)
    (m : ℕ) : Serialized serve holder tasks start w (tr ++ [⟨i,.inr (.called m),()⟩])
      (Function.update ph i (.begun n)) := by
  obtain ⟨order,base,hseq,hfree,hplaced⟩ := h
  have hown := hplaced i
  rw [hph] at hown
  refine .move hseq hfree ⟨hown.inside.trans (by simp),fun h => by simp [inCall_snoc] at h,?_,nofun⟩
    fun j hj => (hplaced j).other _ (Ne.symm hj) Iff.rfl rfl fun _ => ⟨rfl,rfl⟩
  rw [completedBy_same rfl]
  exact hown.explains

theorem Serialized.enters {n : ℕ} {c : C} {r : R c} (h : Serialized serve holder tasks start w tr ph)
    (hph : ph i = .begun n) (hnone : holder w = none) (hsome : holder w' = some i)
    (hserve : serve w i c r = some w') : Serialized serve holder tasks start w' (tr ++ [⟨i,.inl c,r⟩])
      (Function.update ph i (.inside n [⟨c,r⟩])) := by
  obtain ⟨order,base,hseq,hfree,hplaced⟩ := h
  obtain rfl := hfree hnone
  have hown := hplaced i
  rw [hph] at hown
  refine .move hseq (fun h => absurd (hsome.symm.trans h) (by simp))
    ⟨iff_of_true hsome ⟨n,_,rfl⟩,hown.busy (by simp),?_,?_⟩
    fun j hj => (hplaced j).other _ (Ne.symm hj) ?_ rfl ?_
  · rw [completedBy_same rfl]
    exact hown.explains
  · intro m t hp
    obtain ⟨rfl,rfl⟩ := TaskPhase.inside.inj hp
    exact worldAfter_madeBy_snoc (t := []) rfl hserve
  · rw [hsome,hnone]
    simp [Ne.symm hj]
  · exact fun h => absurd (hnone.symm.trans h) (by simp)

theorem Serialized.goesOn {n : ℕ} {t : List (Exchange C R)} {c : C} {r : R c}
    (h : Serialized serve holder tasks start w tr ph) (hph : ph i = .inside n t)
    (hkept : holder w' = holder w) (hserve : serve w i c r = some w') :
    Serialized serve holder tasks start w' (tr ++ [⟨i,.inl c,r⟩])
      (Function.update ph i (.inside n (t ++ [⟨c,r⟩]))) := by
  obtain ⟨order,base,hseq,hfree,hplaced⟩ := h
  have hown := hplaced i
  rw [hph] at hown
  have hholds : holder w = some i := hown.inside.mpr ⟨n,t,rfl⟩
  refine .move hseq (fun h => absurd (hkept.symm.trans h) (by simp [hholds]))
    ⟨iff_of_true (hkept.trans hholds) ⟨n,_,rfl⟩,hown.busy (by simp),?_,?_⟩ fun j hj =>
      (hplaced j).other _ (Ne.symm hj) (by rw [hkept]) rfl fun h => ?_
  · rw [completedBy_same rfl]
    exact hown.explains
  · intro m t' hp
    obtain ⟨rfl,rfl⟩ := TaskPhase.inside.inj hp
    exact worldAfter_madeBy_snoc (hown.made n t rfl) hserve
  · exact absurd (Option.some.inj (h.symm.trans hholds)) hj

/-- At the end of its section a task takes its place in the order. -/
theorem Serialized.leaves {n : ℕ} {t : List (Exchange C R)} {c : C} {r : R c} {x : β}
    (h : Serialized serve holder tasks start w tr ph) (hph : ph i = .inside n t)
    (hnone : holder w' = none) (hserve : serve w i c r = some w')
    (hy : (tasks i n).Yields (t ++ [⟨c,r⟩]) x) :
    Serialized serve holder tasks start w' (tr ++ [⟨i,.inl c,r⟩])
      (Function.update ph i (.left n (t ++ [⟨c,r⟩]))) := by
  obtain ⟨order,base,hseq,hfree,hplaced⟩ := h
  have hown := hplaced i
  rw [hph] at hown
  have hholds : holder w = some i := hown.inside.mpr ⟨n,t,rfl⟩
  have hother {j : ι} (hj : j ≠ i) : holder w ≠ some j :=
    fun h => hj (Option.some.inj (h.symm.trans hholds))
  refine .move (hseq.snoc hy (worldAfter_madeBy_snoc (hown.made n t rfl) hserve)) (fun _ => rfl)
    ⟨iff_of_false (by simp [hnone]) (by simp),hown.busy (by simp),⟨x,hy,?_⟩,nofun⟩ fun j hj =>
      (hplaced j).other _ (Ne.symm hj) (iff_of_false (by simp [hnone]) (hother hj)) ?_ fun h =>
        absurd h (hother hj)
  · rw [completedBy_same rfl,completedBy_snoc,if_pos rfl]
    exact congrArg (· ++ [_]) hown.explains
  · rw [completedBy_snoc,if_neg (Ne.symm hj),List.append_nil]

theorem Serialized.returns {n : ℕ} {t : List (Exchange C R)} {x : β}
    (h : Serialized serve holder tasks start w tr ph) (hph : ph i = .left n t)
    (hy : (tasks i n).Yields t x) :
    Serialized serve holder tasks start w (tr ++ [⟨i,.inr (.returned n x),()⟩])
      (Function.update ph i (.idle (n+1))) := by
  obtain ⟨order,base,hseq,hfree,hplaced⟩ := h
  have hown := hplaced i
  rw [hph] at hown
  obtain ⟨y,hy',horder⟩ := hown.explains
  obtain rfl := hy.unique hy'
  refine .move hseq hfree ⟨hown.inside.trans (by simp),fun _ => ⟨_,rfl⟩,?_,nofun⟩
    fun j hj => (hplaced j).other _ (Ne.symm hj) Iff.rfl rfl fun _ => ⟨rfl,rfl⟩
  rw [completedBy_event,if_pos rfl]
  exact horder

theorem Serialized.step [DecidableEq C] (hlocking : Locking serve holder lock unlock)
    {c : TaskCall C β}
    {r : TaskAnswer R β c} (h : Serialized serve holder tasks start w tr ph)
    (hallows : (sectioned lock unlock (tasks i)).allows (ph i) c)
    (hserve : (Kernel.noted serve) w i c r = some w') :
    Serialized serve holder tasks start w' (tr ++ [⟨i,c,r⟩])
      (Function.update ph i ((sectioned lock unlock (tasks i)).next (ph i) c r)) := by
  cases hph : ph i with
  | idle n =>
    rw [hph] at hallows
    rcases c with c | (m | ⟨m,x⟩)
    · exact absurd hallows id
    · obtain rfl := Option.some.inj hserve
      exact h.calls hph m
    · exact absurd hallows id
  | begun n =>
    rw [hph] at hallows
    rcases c with c | m
    · obtain rfl : c = lock := hallows
      obtain ⟨hnone,hsome⟩ := hlocking.acquires hserve
      exact h.enters hph hnone hsome hserve
    · cases m <;> exact absurd hallows id
  | inside n t =>
    rw [hph] at hallows
    rcases c with c | m
    · rcases hallows.2 with ⟨hlock,hunlock⟩ | ⟨rfl,hends⟩
      · have hnext : (sectioned lock unlock (tasks i)).next (.inside n t) (.inl c) r =
            .inside n (t ++ [⟨c,r⟩]) := if_neg hunlock
        rw [hnext]
        exact h.goesOn hph (hlocking.keeps hlock hunlock hserve) hserve
      · obtain ⟨x,hy⟩ := hends r
        have hnext : (sectioned lock c (tasks i)).next (.inside n t) (.inl c) r =
            .left n (t ++ [⟨c,r⟩]) :=
          if_pos rfl
        rw [hnext]
        exact h.leaves hph (hlocking.releases hserve) hserve hy
    · cases m <;> exact absurd hallows id
  | left n t =>
    rw [hph] at hallows
    rcases c with c | (m | ⟨m,x⟩)
    · exact absurd hallows id
    · exact absurd hallows id
    · obtain ⟨rfl,hy⟩ := hallows
      obtain rfl := Option.some.inj hserve
      exact h.returns hph hy

theorem Placed.discipline [DecidableEq C] {c : TaskCall C β} {p : TaskPhase C R}
    (h : Placed serve holder tasks tr order base w i p)
    (hallows : (sectioned lock unlock (tasks i)).allows p c) :
    (∀ c', c = .inl c' → c' ≠ lock → holder w = some i) ∧
      ∀ n x, c = .inr (.returned n x) → holder w ≠ some i := by
  constructor
  · rintro c' rfl hlock
    cases p with
    | begun n => exact absurd hallows hlock
    | inside n t => exact h.inside.mpr ⟨n,t,rfl⟩
    | _ => exact absurd hallows id
  · rintro n x rfl hholds
    obtain ⟨m,t,rfl⟩ := h.inside.mp hholds
    exact absurd hallows id

/-- In every run in which each task that is begun is a section of the lock, the discipline is kept,
and when no task is left unfinished the world is that of some sequential order of the completed
tasks, in which the tasks of each process keep their order. -/
theorem Run.serialized [DecidableEq C] {cond : W → List (TaskEvent ι C R β) → TaskEvent ι C R β → Prop}
    {c : Config ι W (TaskCall C β) (TaskAnswer R β)} (hlocking : Locking serve holder lock unlock)
    (hstart : holder start = none)
    (hcond : ∀ w tr i n, cond w tr ⟨i,.inr (.called n),()⟩ → (tasks i n).IsSection lock unlock)
    (hrun : Run (Kernel.noted serve) cond ⟨start,fun i => worker (tasks i)⟩ tr c) :
    Disciplined serve holder lock start tr ∧ ((∀ i, inCall tr i = false) →
      ∃ order, Sequential serve tasks start order c.world ∧
        ∀ i, completedBy i order = completedBy i (tr.filterMap completion)) := by
  have hserialized {tr : List (TaskEvent ι C R β)} {c : Config ι W (TaskCall C β) (TaskAnswer R β)}
      (hrun : Run (Kernel.noted serve) cond ⟨start,fun i => worker (tasks i)⟩ tr c) :
      Serialized serve holder tasks start c.world tr
        (after (fun i => sectioned lock unlock (tasks i)) (fun _ => .idle 0) tr) ∧
      ∀ i, (c.procs i).Follows (sectioned lock unlock (tasks i))
        (after (fun i => sectioned lock unlock (tasks i)) (fun _ => .idle 0) tr i) fun _ _ =>
          True := by
    refine hrun.invariant (I := fun w tr => Serialized serve holder tasks start w tr
      (after (fun i => sectioned lock unlock (tasks i)) (fun _ => .idle 0) tr)) ?_
      (fun i => worker_follows) ?_
    · exact ⟨[],start,.nil,fun _ => rfl,fun i => ⟨by simp [hstart],fun _ => ⟨0,rfl⟩,rfl,nofun⟩⟩
    · intro w tr i c r w' h hallows hserve hc
      refine ⟨?_,?_⟩
      · rcases c with c | (n | ⟨n,x⟩)
        · trivial
        · exact hcond w tr i n hc
        · trivial
      · rw [after_snoc]
        exact h.step hlocking hallows hserve
  constructor
  · intro before e after htr
    obtain ⟨c',next,hrun',hproc,_⟩ := hrun.before htr
    obtain ⟨⟨order,base,_,_,hplaced⟩,hfollows⟩ := hserialized hrun'
    have hnext := hfollows e.pid
    rw [hproc] at hnext
    exact ⟨c'.world,hrun'.world_eq,(hplaced e.pid).discipline hnext.1⟩
  · intro hreturned
    obtain ⟨⟨order,base,hseq,hfree,hplaced⟩,-⟩ := hserialized hrun
    have hidle (i : ι) := (hplaced i).idle (hreturned i)
    have hnone : holder c.world = none := by
      refine Option.eq_none_iff_forall_ne_some.mpr fun i hi => ?_
      obtain ⟨n,hn⟩ := hidle i
      obtain ⟨m,t,hm⟩ := (hplaced i).inside.mp hi
      exact absurd (hn.symm.trans hm) (by simp)
    refine ⟨order,hfree hnone ▸ hseq,fun i => ?_⟩
    obtain ⟨n,hn⟩ := hidle i
    have hexplains := (hplaced i).explains
    rw [hn] at hexplains
    exact hexplains

end Program
end LixRtos
