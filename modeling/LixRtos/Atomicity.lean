import LixRtos.CriticalSections

/-! Objects behind a lock. Every run of processes whose tasks are critical sections is explained by
a sequential run of the tasks, in the order in which the lock is released, and every call of it is
one that a task makes in a sequential run. -/
namespace LixRtos
namespace Program

variable {C : Type} {R : C → Type} {A α β : Type}

variable {t : List (Exchange C R)} {lock unlock : C} {tasks : ℕ → Program C R β}

theorem IsSection.unlocks [DecidableEq C] {p : Program C R β} {x : β} (h : p.IsSection lock unlock)
    (hne : lock ≠ unlock) (hy : p.Yields t x) : (t.filter fun e => e.call = unlock).length = 1 := by
  obtain ⟨body,hcalls,rfl⟩ := h
  obtain ⟨r,t',rfl,hinner⟩ := hy.of_call
  obtain ⟨t₁,t₂,x',rfl,hbody,hrest⟩ := hinner.of_bind
  obtain ⟨r',t₃,rfl,hret⟩ := hrest.of_call
  obtain ⟨rfl,-⟩ := hret.of_ret
  have hnone : (t₁.filter fun e => e.call = unlock) = [] :=
    List.filter_eq_nil_iff.mpr fun e he => by simpa using (hcalls.mem hbody e he).2
  simp [hne,hnone]

def TaskPhase.Unreleased (unlock : C) : TaskPhase C R → Prop
  | .inside _ t => ∀ e ∈ t, e.call ≠ unlock
  | _ => True

theorem TaskPhase.Unreleased.next [DecidableEq C] {p : TaskPhase C R} {c : TaskCall C β}
    {r : TaskAnswer R β c}
    (h : p.Unreleased unlock) (hne : lock ≠ unlock)
    (hallows : (sectioned lock unlock tasks).allows p c) :
    ((sectioned lock unlock tasks).next p c r).Unreleased unlock := by
  cases p with
  | idle n => rcases c with c | (m | ⟨m,x⟩) <;> trivial
  | left n t => rcases c with c | (m | ⟨m,x⟩) <;> trivial
  | begun n =>
    rcases c with c | m
    · obtain rfl : c = lock := hallows
      exact fun e he => List.mem_singleton.mp he ▸ hne
    · cases m <;> trivial
  | inside n t =>
    rcases c with c | m
    · by_cases hc : c = unlock
      · have hnext : (sectioned lock unlock tasks).next (.inside n t) (.inl c) r =
          .left n (t ++ [⟨c,r⟩]) := if_pos hc
        rw [hnext]
        trivial
      · have hnext : (sectioned lock unlock tasks).next (.inside n t) (.inl c) r =
          .inside n (t ++ [⟨c,r⟩]) :=
          if_neg hc
        rw [hnext]
        exact List.forall_mem_append.mpr ⟨h,fun e he => List.mem_singleton.mp he ▸ hc⟩
    · cases m <;> exact h

/-- The task that the process is carrying out, with its exchanges so far. -/
def TaskPhase.task : TaskPhase C R → Option (ℕ × List (Exchange C R))
  | .idle _ => none
  | .begun n => some (n,[])
  | .inside n t => some (n,t)
  | .left n t => some (n,t)

variable {ι W : Type} {serve : Kernel ι W C R} {holder : W → Option ι} {sections : ι → ℕ →
  Program C R β}
  {start base w : W} {tr tr' tr'' : List (TaskEvent ι C R β)} {order : List (Completed ι β)}
  {cond : W → List (TaskEvent ι C R β) → TaskEvent ι C R β → Prop} {i : ι}

def Kernel.listing [DecidableEq C] (unlock : C) (serve : Kernel ι W C R) : Kernel ι (W × List ι) C R :=
  fun w i c r => (serve w.1 i c r).map fun w' => (w',if c = unlock then w.2 ++ [i] else w.2)

def releases [DecidableEq C] (unlock : C) (tr : List (TaskEvent ι C R β)) : List ι :=
  tr.filterMap fun e =>
    match e.call with
    | .inl c => if c = unlock then some e.pid else none
    | .inr _ => none

/-- The task that the process has begun and not returned from, with its exchanges so far. -/
def underway [DecidableEq ι] (tr : List (TaskEvent ι C R β)) (i : ι) :
    Option (ℕ × List (Exchange C R)) :=
  tr.foldl (fun now e =>
    if e.pid = i then
      match e with
      | ⟨_,.inr (.called n),_⟩ => some (n,[])
      | ⟨_,.inr (.returned _ _),_⟩ => none
      | ⟨_,.inl c,r⟩ => now.map fun (n,t) => (n,t ++ [⟨c,r⟩])
    else now) none

theorem underway_of_ne [DecidableEq ι] {e : TaskEvent ι C R β} (h : e.pid ≠ i) :
    underway (tr ++ [e]) i = underway tr i := by
  simp [underway,h]

theorem underway_snoc [DecidableEq C] [DecidableEq ι] {p : TaskPhase C R} {c : TaskCall C β}
    {r : TaskAnswer R β c} (h : underway tr i = p.task)
    (hallows : (sectioned lock unlock tasks).allows p c) :
    underway (tr ++ [⟨i,c,r⟩]) i = ((sectioned lock unlock tasks).next p c r).task := by
  rw [underway,List.foldl_append,List.foldl_cons,List.foldl_nil,if_pos rfl,← underway,h]
  cases p with
  | idle n =>
    rcases c with c | (m | ⟨m,x⟩)
    · exact absurd hallows id
    · obtain rfl : m = n := hallows
      rfl
    · exact absurd hallows id
  | begun n =>
    rcases c with c | m
    · rfl
    · cases m <;> exact absurd hallows id
  | inside n t =>
    rcases c with c | m
    · simp only [sectioned]
      split <;> rfl
    · cases m <;> exact absurd hallows id
  | left n t =>
    rcases c with c | (m | ⟨m,x⟩)
    · exact absurd hallows id
    · exact absurd hallows id
    · rfl

theorem Locking.listing [DecidableEq C] (h : Locking serve holder lock unlock) :
    Locking (Kernel.listing unlock serve) (fun w => holder w.1) lock unlock where
  acquires hserve := by
    obtain ⟨w',hw,rfl⟩ := Option.map_eq_some_iff.mp hserve
    exact h.acquires hw
  releases hserve := by
    obtain ⟨w',hw,rfl⟩ := Option.map_eq_some_iff.mp hserve
    exact h.releases hw
  keeps hlock hunlock hserve := by
    obtain ⟨w',hw,rfl⟩ := Option.map_eq_some_iff.mp hserve
    exact h.keeps hlock hunlock hw

theorem Run.listing [DecidableEq C] [DecidableEq ι]
    {procs : ι → Program (TaskCall C β) (TaskAnswer R β) Unit}
    {c : Config ι W (TaskCall C β) (TaskAnswer R β)}
    (hrun : Run (Kernel.noted serve) cond ⟨start,procs⟩ tr c) :
    Run (Kernel.noted (Kernel.listing unlock serve)) anyCall ⟨(start,[]),procs⟩ tr
      ⟨(c.world,releases unlock tr),c.procs⟩ := by
  induction hrun with
  | refl => exact .refl
  | loop i _ hi ih => exact .loop i ih hi
  | @call tr w w' procs i c next r _ hi hserve hcond ih =>
    refine .call i r ih hi ?_ trivial
    rcases c with c | m
    · refine Option.map_eq_some_iff.mpr ⟨w',hserve,?_⟩
      by_cases hc : c = unlock <;> simp [releases,hc]
    · obtain rfl := Option.some.inj hserve
      simp [releases,Kernel.noted]

theorem worldAfter_listing [DecidableEq C] {v v' : W × List ι}
    (h : worldAfter (Kernel.listing unlock serve) v (madeBy i t) = some v') :
    worldAfter serve v.1 (madeBy i t) = some v'.1 ∧
      v'.2 = v.2 ++ (t.filter fun e => e.call = unlock).map fun _ => i := by
  induction t generalizing v with
  | nil =>
    obtain rfl := Option.some.inj h
    exact ⟨rfl,by simp⟩
  | cons e t ih =>
    obtain ⟨v₁,hfirst,hrest⟩ := Option.bind_eq_some_iff.mp h
    obtain ⟨w',hw,rfl⟩ := Option.map_eq_some_iff.mp hfirst
    obtain ⟨hworld,hlist⟩ := ih hrest
    refine ⟨Option.bind_eq_some_iff.mpr ⟨w',hw,hworld⟩,?_⟩
    rw [hlist]
    by_cases hc : e.call = unlock <;> simp [hc]

theorem Sequential.listed [DecidableEq C] (hne : lock ≠ unlock)
    (hsection : ∀ i n, (sections i n).IsSection lock unlock) {v : W × List ι}
    (h : Sequential (Kernel.listing unlock serve) sections (start,[]) order v) :
    Sequential serve sections start order v.1 ∧ v.2 = order.map Completed.pid := by
  induction h with
  | nil => exact ⟨.nil,rfl⟩
  | @snoc order v v' i n t x _ hy hw ih =>
    obtain ⟨hseq,hlist⟩ := ih
    obtain ⟨hworld,hmore⟩ := worldAfter_listing hw
    refine ⟨.snoc hseq hy hworld,?_⟩
    obtain ⟨e,he⟩ := List.length_eq_one_iff.mp ((hsection i n).unlocks hne hy)
    rw [hmore,hlist,he,List.map_append]
    rfl

section Runs

variable [DecidableEq C] [DecidableEq ι]

/-- The tasks that the process completed, and one more if it has released the lock but not
returned. -/
def Accounts (tr : List (TaskEvent ι C R β)) (order : List (Completed ι β)) (i : ι) : Prop :=
  completedBy i order = completedBy i (tr.filterMap completion) ∨
    inCall tr i = true ∧ ∃ d, completedBy i order = completedBy i (tr.filterMap completion) ++ [d]

variable {c : Config ι W (TaskCall C β) (TaskAnswer R β)}

abbrev phases (lock unlock : C) (sections : ι → ℕ → Program C R β) (tr : List (TaskEvent ι C R β)) :
    ι → TaskPhase C R :=
  after (fun i => sectioned lock unlock (sections i)) (fun _ => .idle 0) tr

/-- What holds in every state that is reached. -/
theorem Run.tracked (hlocking : Locking serve holder lock unlock) (hne : lock ≠ unlock)
    (hstart : holder start = none)
    (hsection : ∀ i n, (sections i n).IsSection lock unlock)
    (hrun : Run (Kernel.noted serve) cond ⟨start,fun i => worker (sections i)⟩ tr c) :
    (Serialized serve holder sections start c.world tr (phases lock unlock sections tr) ∧
      ∀ i, (phases lock unlock sections tr i).Unreleased unlock ∧
        underway tr i = (phases lock unlock sections tr i).task) ∧
    ∀ i, (c.procs i).Follows (sectioned lock unlock (sections i)) (phases lock unlock sections tr i)
      fun _ _ => True := by
  refine hrun.invariant (I := fun w tr => Serialized serve holder sections start w tr
    (phases lock unlock sections tr) ∧ ∀ i, (phases lock unlock sections tr i).Unreleased unlock ∧
      underway tr i = (phases lock unlock sections tr i).task) ?_ (fun i => worker_follows) ?_
  · exact ⟨⟨[],start,.nil,fun _ => rfl,fun i => ⟨by simp [hstart],fun _ => ⟨0,rfl⟩,rfl,nofun⟩⟩,
      fun _ => ⟨trivial,rfl⟩⟩
  · rintro w tr i c r w' ⟨h,hheld⟩ hallows hserve _
    refine ⟨?_,?_,fun j => ?_⟩
    · rcases c with c | (n | ⟨n,x⟩)
      · trivial
      · exact hsection i n
      · trivial
    · rw [phases,after_snoc]
      exact h.step hlocking hallows hserve
    · rw [phases,after_snoc]
      by_cases hj : j = i
      · subst hj
        rw [Function.update_self]
        exact ⟨(hheld j).1.next hne hallows,underway_snoc (hheld j).2 hallows⟩
      · rw [Function.update_of_ne hj,underway_of_ne (Ne.symm hj)]
        exact hheld j

omit [DecidableEq C] in
theorem Accounts.eq (h : Accounts tr order i) (hidle : inCall tr i = false) :
    completedBy i order = completedBy i (tr.filterMap completion) :=
  h.resolve_right fun hbusy => absurd (hidle.symm.trans hbusy.1) (by simp)

theorem perm_of_completedBy [DecidableEq β] {order order' : List (Completed ι β)}
    (h : ∀ i, completedBy i order = completedBy i order') : order.Perm order' := by
  refine List.perm_iff_count.mpr fun d => ?_
  have hown (l : List (Completed ι β)) : (completedBy d.pid l).count d = l.count d :=
    List.count_filter (decide_eq_true rfl)
  rw [← hown order,h,hown order']

omit [DecidableEq C] in
theorem Placed.accounts {p : TaskPhase C R} (h : Placed serve holder sections tr order base w i p) :
    Accounts tr order i := by
  have hexplains := h.explains
  cases p with
  | left n t =>
    obtain ⟨x,-,horder⟩ := hexplains
    refine Or.inr ⟨?_,_,horder⟩
    by_contra hidle
    obtain ⟨m,hm⟩ := h.idle (Bool.eq_false_iff.mpr hidle)
    exact absurd hm (by simp)
  | _ => exact Or.inl hexplains

/-- The tasks have taken effect one at a time, in the order in which the lock was released. A task
that has the lock began in the world that they have left. -/
theorem Run.linearized (hlocking : Locking serve holder lock unlock) (hne : lock ≠ unlock)
    (hstart : holder start = none) (hsection : ∀ i n, (sections i n).IsSection lock unlock)
    (hrun : Run (Kernel.noted serve) cond ⟨start,fun i => worker (sections i)⟩ tr c) :
    ∃ order base, Sequential serve sections start order base ∧
      order.map Completed.pid = releases unlock tr ∧
      (holder c.world = none → c.world = base) ∧ (∀ i, Accounts tr order i) ∧
      ∀ i n t, phases lock unlock sections tr i = .inside n t → worldAfter serve base (madeBy i t) =
        some c.world := by
  have hnobody : (fun w : W × List ι => holder w.1) (start,[]) = none := hstart
  obtain ⟨⟨⟨order,base,hseq,hfree,hplaced⟩,hheld⟩,-⟩ :=
    Run.tracked hlocking.listing hne hnobody hsection hrun.listing
  obtain ⟨hseq',hlist⟩ := hseq.listed hne hsection
  -- the list does not change between the last release and now
  have hsame : base.2 = releases unlock tr := by
    cases hholder : holder c.world with
    | none => rw [← hfree hholder]
    | some i =>
      obtain ⟨n,t,hphase⟩ := (hplaced i).inside.mp hholder
      have hnone : (t.filter fun e => e.call = unlock) = [] := by
        have hunlocked := (hheld i).1
        rw [hphase] at hunlocked
        exact List.filter_eq_nil_iff.mpr fun e he => by simpa using hunlocked e he
      obtain ⟨-,hmore⟩ := worldAfter_listing ((hplaced i).made n t hphase)
      rw [hnone,List.map_nil,List.append_nil] at hmore
      exact hmore.symm
  exact ⟨order,base.1,hseq',hlist.symm.trans hsame,fun h => congrArg Prod.fst (hfree h),
    fun i => (hplaced i).accounts,fun i n t hphase =>
      (worldAfter_listing ((hplaced i).made n t hphase)).1⟩

theorem Run.holder_inCall (hlocking : Locking serve holder lock unlock) (hne : lock ≠ unlock)
    (hstart : holder start = none) (hsection : ∀ i n, (sections i n).IsSection lock unlock)
    (hrun : Run (Kernel.noted serve) cond ⟨start,fun i => worker (sections i)⟩ tr c)
    (hholder : holder c.world = some i) : inCall tr i = true := by
  obtain ⟨⟨⟨order,base,-,-,hplaced⟩,-⟩,-⟩ := Run.tracked hlocking hne hstart hsection hrun
  obtain ⟨n,t,hinside⟩ := (hplaced i).inside.mp hholder
  by_contra hidle
  obtain ⟨m,hphase⟩ := (hplaced i).idle (Bool.eq_false_iff.mpr hidle)
  exact absurd (hinside.symm.trans hphase) (by simp)

end Runs

section Objects

variable {State : Type} {effect : ι → ℕ → State → β → State → Prop} {s s' : State}

/-- A process that has the world for itself and gets the answers that are granted. -/
def alone (serve : Kernel ι W C R) (safe : W → C → Prop) (granted : (c : C) → R c → Prop) (i : ι) :
    Protocol C R W where
  allows := safe
  answers w c r := (serve w i c r).isSome ∧ granted c r
  next w c r := (serve w i c r).getD w

theorem alone_run (safe : W → C → Prop) (granted : (c : C) → R c → Prop)
    (h : worldAfter serve base (madeBy i t) = some w) (hgranted : ∀ e ∈ t, granted e.call e.answer) :
    (alone serve safe granted i).Accepts base t ∧ (alone serve safe granted i).final base t = w := by
  induction t generalizing base with
  | nil => exact ⟨trivial,Option.some.inj h⟩
  | cons e t ih =>
    obtain ⟨w₁,hfirst,hrest⟩ := Option.bind_eq_some_iff.mp h
    have hnext : (alone serve safe granted i).next base e.call e.answer = w₁ := by
      have hserve : serve base i e.call e.answer = some w₁ := hfirst
      simp only [alone,hserve,Option.getD_some]
    obtain ⟨hnow,hlater⟩ := List.forall_mem_cons.mp hgranted
    obtain ⟨haccepts,hfinal⟩ := ih hrest hlater
    rw [Protocol.Accepts,Protocol.final,hnext]
    exact ⟨⟨⟨Option.isSome_iff_exists.mpr ⟨w₁,hfirst⟩,hnow⟩,haccepts⟩,hfinal⟩

theorem Follows.unguarded {α : Type} {p : Program C R α} {safe : W → C → Prop}
    {granted : (c : C) → R c → Prop}
    {post : W → α → Prop} (h : p.Follows (alone serve safe granted i) w post)
    (hgranted : ∀ c r, granted c r) :
    p.Follows (alone serve (fun _ _ => True) (fun _ _ => True) i) w post := by
  induction p generalizing w with
  | ret x => exact h
  | call c next ih => exact ⟨trivial,fun r hr => ih r (h.2 r ⟨hr.1,hgranted c r⟩)⟩
  | loop body s next ihb ihn =>
    obtain ⟨inv,hinv,hbody⟩ := h
    refine ⟨inv,hinv,fun w s hs => (ihb s (hbody w s hs)).mono ?_⟩
    rintro w (s | b) h
    · exact h
    · exact ihn b h

/-- The tasks of this order take the object from `s` to another state. -/
inductive Legal (effect : ι → ℕ → State → β → State → Prop) (s : State) :
    List (Completed ι β) → State → Prop
  | nil : Legal effect s [] s
  | snoc {order : List (Completed ι β)} {s₁ s₂ : State} {i : ι} {n : ℕ} {x : β}
      (h : Legal effect s order s₁)
      (heffect : effect i n s₁ x s₂) : Legal effect s (order ++ [⟨i,n,x⟩]) s₂

/-- Every task that has the world for itself has its effect on the object. -/
def Implements (serve : Kernel ι W C R) (sections : ι → ℕ → Program C R β) (Rep : State → W → Prop)
    (effect : ι → ℕ → State → β → State → Prop) : Prop :=
  ∀ i n s w, Rep s w → (sections i n).Follows (alone serve (fun _ _ => True) (fun _ _ => True) i) w
    fun w' x => ∃ s', effect i n s x s' ∧ Rep s' w'

variable {Rep : State → W → Prop}

theorem Implements.legal (himpl : Implements serve sections Rep effect)
    (hseq : Sequential serve sections start order w) (hrep : Rep s start) :
    ∃ s', Legal effect s order s' ∧ Rep s' w := by
  induction hseq with
  | nil => exact ⟨s,.nil,hrep⟩
  | @snoc order w w' i n t x _ hy hw ih =>
    obtain ⟨s₁,hlegal,hrep₁⟩ := ih
    obtain ⟨haccepts,hfinal⟩ := alone_run (fun _ _ => True) (fun _ _ => True) hw fun _ _ => trivial
    obtain ⟨s₂,heffect,hrep₂⟩ := (himpl i n s₁ w hrep₁).yields hy haccepts
    rw [hfinal] at hrep₂
    exact ⟨s₂,hlegal.snoc heffect,hrep₂⟩

variable [DecidableEq C] [DecidableEq ι] {c : Config ι W (TaskCall C β) (TaskAnswer R β)}

/-- Every run is that of the object: the tasks have their effects one after the other, in the order
in which the lock is released, and while nobody holds the lock the world represents its state. -/
theorem Run.linearizable (hlocking : Locking serve holder lock unlock) (hne : lock ≠ unlock)
    (hstart : holder start = none) (hsection : ∀ i n, (sections i n).IsSection lock unlock)
    (himpl : Implements serve sections Rep effect) (hrep : Rep s start)
    (hrun : Run (Kernel.noted serve) cond ⟨start,fun i => worker (sections i)⟩ tr c) :
    ∃ order s', Legal effect s order s' ∧ order.map Completed.pid = releases unlock tr ∧
      (∀ i, Accounts tr order i) ∧ (holder c.world = none → Rep s' c.world) := by
  obtain ⟨order,base,hseq,hlist,hfree,haccounts,-⟩ := hrun.linearized hlocking hne hstart hsection
  obtain ⟨s',hlegal,hrep'⟩ := himpl.legal hseq hrep
  exact ⟨order,s',hlegal,hlist,haccounts,fun h => hfree h ▸ hrep'⟩

/-- While no task is under way the world represents the object after all the tasks that have
returned. -/
theorem Run.quiescent [DecidableEq β] (hlocking : Locking serve holder lock unlock)
    (hne : lock ≠ unlock)
    (hstart : holder start = none) (hsection : ∀ i n, (sections i n).IsSection lock unlock)
    (himpl : Implements serve sections Rep effect) (hrep : Rep s start)
    (hrun : Run (Kernel.noted serve) cond ⟨start,fun i => worker (sections i)⟩ tr c)
    (hidle : ∀ i, inCall tr i = false) :
    ∃ order s', Legal effect s order s' ∧ order.Perm (tr.filterMap completion) ∧ Rep s' c.world := by
  obtain ⟨order,s',hlegal,-,haccounts,hfree⟩ :=
    hrun.linearizable hlocking hne hstart hsection himpl hrep
  have hnobody : holder c.world = none := by
    refine Option.eq_none_iff_forall_ne_some.mpr fun i hi => ?_
    have hbusy := hrun.holder_inCall hlocking hne hstart hsection hi
    exact absurd (hidle i) (by simp [hbusy])
  exact ⟨order,s',hlegal,perm_of_completedBy fun i => (haccounts i).eq (hidle i),hfree hnobody⟩

end Objects

end Program
end LixRtos
