import LixRtos.OptionRuns

/-! What `opt_run` gives to `getopt_long`, and which function it calls for an option. The name that
`getopt_long` has found is looked up by its first eight characters only, and the table that it
searches ends where the block ends. -/
namespace LixRtos
namespace OptList

/-- The call of a registered function, nothing for `NULL`. -/
def callOf (func : ℕ) (g : Getopt) : Option (ℕ × Option Text) :=
  if func ≠ 0 then some (func,g.optarg) else none

/-- What is to be called once `getopt_long` has found an option. -/
def due (regs : List Registration) (g : Getopt) : Option (ℕ × Option Text) :=
  regs[g.idx]?.bind fun r => callOf r.func g

/-- Each time `getopt_long` returns 0 the function of the option is called once, with `optarg`,
before it is called again, and no function is called otherwise. The state is the call that is due;
`getopt_long` gives one of `gs`, or -1. -/
def dispatching (regs : List Registration) (gs : List Getopt) :
    Program.Protocol (SysCall ⊕ OptCall) OptAnswer (Option (ℕ × Option Text)) where
  allows
    | b, .inr (.func f optarg) => b = some (f,optarg)
    | b, .inr (.getoptLong _ _) => b = none
    | _, _ => True
  answers
    | _, .inr (.getoptLong _ _), g => g.ret = -1 ∨ g ∈ gs
    | _, _, _ => True
  next
    | _, .inr (.getoptLong _ _), g => if g.ret = 0 then due regs g else none
    | _, .inr (.func _ _), _ => none
    | b, _, _ => b

def terminator : LongOption := ⟨none,0,0,0⟩

/-- The block begins with the registered options, and the terminator comes next inside of it. -/
def WellFormed (regs : List Registration) (block : OptionBlock) : Prop :=
  block.take regs.length = table regs ∧ block[regs.length]? = some (some terminator)

/-- `getopt_long` is called with well-formed tables only. -/
def tabled (regs : List Registration) : Program.Protocol (SysCall ⊕ OptCall) OptAnswer Unit where
  allows
    | _, .inr (.getoptLong _ block) => WellFormed regs block
    | _, _ => True
  answers _ _ _ := True
  next _ _ _ := ()

/-- Every run of `opt_run` ends, and calls the functions of the options that `getopt_long` finds,
which gives `gs` for `argv`. -/
def Dispatches (s : OptList) (heap : List ℕ) (regs : List Registration) (argv : List Text)
    (gs : List Getopt) : Prop :=
  Program.Ends (environment.both (dispatching regs gs)) (s.optRun argv) ((heap,gs),none) fun s' _ =>
    s'.2 = none

/-- Every run of `opt_run` ends, and gives well-formed tables to `getopt_long`. -/
def TableTerminated (s : OptList) (heap : List ℕ) (regs : List Registration) (argv : List Text)
    (gs : List Getopt) :
    Prop :=
  Program.Ends (environment.both (tabled regs)) (s.optRun argv) ((heap,gs),()) fun _ _ => True

/-- A registration under a new name, for which `getopt_long` returns 0. -/
def Registers (regs : List Registration) (op : Op) : Prop :=
  ∃ opt func desc, op = .reg opt func desc ∧ opt.flag = 0 ∧ opt.val = 0 ∧
    ∀ r ∈ regs, r.opt.name ≠ opt.name

variable {s start : OptList} {p : ℕ} {xs a heap : List ℕ} {regs : List Registration}
  {argv : List Text} {gs : List Getopt}
  {A β : Type} {P : Program.Protocol (SysCall ⊕ OptCall) OptAnswer A} {b : A}

/-- The calls of the allocator are allowed and do not matter. -/
structure Allocating (P : Program.Protocol (SysCall ⊕ OptCall) OptAnswer A) : Prop where
  allows : ∀ b c, P.allows b (.inl c)
  answers : ∀ b (c : SysCall) r, P.answers b (.inl c) r
  next : ∀ b (c : SysCall) r, P.next b (.inl c) r = b

theorem dispatching_allocating (regs : List Registration) (gs : List Getopt) :
    Allocating (dispatching regs gs) :=
  ⟨fun _ _ => trivial,fun _ _ _ => trivial,fun _ _ _ => rfl⟩

theorem tabled_allocating (regs : List Registration) : Allocating (tabled regs) :=
  ⟨fun _ _ => trivial,fun _ _ _ => trivial,fun _ _ _ => rfl⟩

theorem lib_follows {α : Type} (hP : Allocating P) (p : Sys α) :
    (Opt.lib p).Follows P b fun b' _ => b' = b := by
  induction p with
  | ret x => rfl
  | call c next ih =>
    refine ⟨hP.allows b c,fun r _ => ?_⟩
    rw [hP.next]
    exact ih r
  | loop body s next ihb ihn =>
    refine ⟨fun b' _ => b' = b,rfl,?_⟩
    rintro _ s rfl
    apply (ihb s).mono
    rintro _ (s | x) rfl
    · rfl
    · exact ihn x

def runWith (s : OptList) (argv : List Text) (len optLs : ℕ) : Opt (ℤ × OptList) :=
  if optLs = 0 then .ret (-1,s)
  else (s.copyOptions len).bind fun table =>
      (Program.iterate (fun _ => s.getoptTurn argv table) ()).bind fun _ =>
    (Opt.lib (ofree s.reg optLs)).bind fun r => .ret (0,{ s with reg := r.2 })

theorem optRun_eq (hhead : s.head ≠ 0) : s.optRun argv = s.optLen.bind fun len =>
    (Opt.lib (omalloc s.reg (sizeofOption*len))).bind fun r =>
      runWith { s with reg := r.2 } argv len r.1 :=
  if_neg hhead

theorem follows_optRun (hP : Allocating P) {Q : A → Prop} (hQ : Q b) (h : s.Holds xs)
    (hloop : s.reg.live.length < memoryAllocateMaxTimes → ∀ reg : Registry, (∀ x ∈ xs, x ∈ reg.live) →
      (getopts { s with reg := reg } argv (s.registrations xs)).Follows P b fun b _ => Q b) :
    (s.optRun argv).Follows P b fun b _ => Q b := by
  by_cases hhead : s.head = 0
  · rw [optRun,if_pos hhead]
    exact hQ
  have hpos : xs.length ≠ 0 := fun hlen => hhead (h.head_eq_zero.mpr (List.length_eq_zero_iff.mp hlen))
  rw [optRun_eq hhead]
  refine Program.Follows.bind ((optLen_yields h).silent_ends.follows.mono ?_)
  rintro _ _ ⟨rfl,rfl⟩
  rcases @lib_omalloc s.reg _ (Nat.mul_ne_zero (by decide : sizeofOption ≠ 0) hpos) with
    ⟨hret,_⟩ | ⟨grown,hgrown,hcall⟩
  · rw [hret]
    exact hQ
  rw [hcall]
  refine ⟨hP.allows _ _,fun (optLs : ℕ) _ => ?_⟩
  rw [hP.next]
  by_cases hptr : optLs = 0
  · rw [hptr]
    exact hQ
  have hroom : s.reg.live.length < memoryAllocateMaxTimes := by
    have hlen := (hgrown optLs hptr).length_eq
    have := (grown optLs).live_length_le
    rw [List.length_cons] at hlen
    omega
  have hlive : ∀ x ∈ xs, x ∈ (grown optLs).live := fun x hx =>
    (hgrown optLs hptr).mem_iff.mpr (List.mem_cons_of_mem _ (h.live x hx))
  change (runWith { s with reg :=
    (if optLs = 0 then (0,s.reg) else (optLs,grown optLs)).2 } argv xs.length
    (if optLs = 0 then (0,s.reg) else (optLs,grown optLs)).1).Follows P _ _
  rw [if_neg hptr,runWith,if_neg hptr]
  refine Program.Follows.bind ((copyOptions_yields (h.withReg hlive)).silent_ends.follows.mono ?_)
  rintro _ _ ⟨rfl,rfl⟩
  refine Program.Follows.bind ((hloop hroom _ hlive).mono ?_)
  intro b' _ hb'
  refine Program.Follows.bind ((lib_follows hP _).mono ?_)
  rintro _ _ rfl
  exact hb'

theorem follows_getopts (hP : Allocating P) {post : (List ℕ × List Getopt) × A → ℤ × OptList → Prop}
    (h : s.Holds xs)
    (hne : xs ≠ []) (hroom : s.reg.live.length < memoryAllocateMaxTimes)
    (hrun : (s.optRun argv).Follows (environment.both P) ((heap,gs),b) post) :
    ∃ (reg : Registry) (heap : List ℕ) (f : Unit → Opt (ℤ × OptList)), (∀ x ∈ xs, x ∈ reg.live) ∧
      ((getopts { s with reg := reg } argv (s.registrations xs)).bind f).Follows
      (environment.both P) ((heap,gs),b) post := by
  have hhead : s.head ≠ 0 := mt h.head_eq_zero.mp hne
  have hpos : xs.length ≠ 0 := mt List.length_eq_zero_iff.mp hne
  rw [optRun_eq hhead] at hrun
  have hmalloc := hrun.of_silent (optLen_yields h)
  rcases @lib_omalloc s.reg _ (Nat.mul_ne_zero (by decide : sizeofOption ≠ 0) hpos) with
    ⟨_,hfull⟩ | ⟨grown,hgrown,hcall⟩
  · omega
  obtain ⟨p,hp,hfresh⟩ := exists_fresh heap
  rw [hcall] at hmalloc
  have hlive : ∀ x ∈ xs, x ∈ (grown p).live := fun x hx =>
    (hgrown p hp).mem_iff.mpr (List.mem_cons_of_mem _ (h.live x hx))
  have hblock := hmalloc.2 p ⟨Or.inr ⟨hp,hfresh⟩,hP.answers _ _ _⟩
  have hnext : (environment.both P).next ((heap,gs),b) (.inl (.malloc (sizeofOption*xs.length))) p =
      ((p :: heap,gs),b) :=
    Prod.ext (congrArg (·,gs) (if_neg hp)) (hP.next _ _ _)
  dsimp only at hblock
  rw [hnext,if_neg hp,Program.ret_bind,runWith,if_neg hp] at hblock
  exact ⟨grown p,p :: heap,_,hlive,hblock.of_silent (copyOptions_yields (h.withReg hlive))⟩

theorem not_wellFormed (regs : List Registration) : ¬ WellFormed regs (table regs) := by
  rintro ⟨_,hend⟩
  rw [List.getElem?_eq_none (by simp [table])] at hend
  exact absurd hend (by simp)

theorem Lists.not_tableTerminated (h : s.Lists regs) (hne : regs ≠ [])
    (hroom : s.reg.live.length < memoryAllocateMaxTimes) : ¬ TableTerminated s heap regs argv gs := by
  intro hterm
  obtain ⟨⟨xs,hxs,rfl⟩,_⟩ := h
  have hxs0 : xs ≠ [] := fun hnil => hne (hnil ▸ rfl)
  obtain ⟨reg,heap,f,hlive,hloop⟩ :=
    follows_getopts (tabled_allocating _) hxs hxs0 hroom (Program.Ends.follows hterm)
  exact not_wellFormed _ hloop.unfold.1.2

/-- In every state that the calls lead to, `opt_run` on a registry that is not empty gives a
well-formed table if and only if it gets no memory for one. -/
theorem tableTerminated_iff (inv : start.reg.Inv a) (hhead : start.head = 0)
    (hrun : Run (fun regs op => op = .free → regs = []) start a regs heap s) (hne : regs ≠ [])
    (argv : List Text)
    (hgs : InTable regs gs) :
    TableTerminated s heap regs argv gs ↔ s.reg.live.length = memoryAllocateMaxTimes := by
  have hkeeps := hrun.keeps (fun _ hfree => hfree rfl) inv hhead
  constructor
  · intro hterm
    by_contra hfull
    exact hkeeps.lists.not_tableTerminated hne (lt_of_le_of_ne s.reg.live_length_le hfull) hterm
  · intro hfull
    have hfollows : (s.optRun argv).Follows (tabled regs) () fun _ _ => True := by
      obtain ⟨⟨xs,hxs,rfl⟩,_⟩ := hkeeps.lists
      exact follows_optRun (tabled_allocating _) trivial hxs fun hroom => absurd hfull hroom.ne
    exact ((ends_optRun hkeeps argv hgs).both hfollows).mono fun _ _ _ => trivial

theorem tableTerminated_iff_sample : ∃ s, Run (fun regs op => op = .free → regs = []) sampleStart []
    [sampleOption ['a'] 7,sampleOption ['b'] 8] [200,100] s ∧
    ¬ TableTerminated s [200,100] [sampleOption ['a'] 7,sampleOption ['b'] 8] ["prog".toList] [] := by
  obtain ⟨s,hroom,hrun⟩ := sample_two (fun regs op => op = .free → regs = []) ['a'] ['b'] 7 8
    (fun he => absurd he (by decide)) fun he => absurd he (by decide)
  have hiff := tableTerminated_iff (Registry.Inv.empty []) rfl hrun (List.cons_ne_nil _ _)
    ["prog".toList]
    (inTable_nil _)
  exact ⟨s,hrun,fun hterm => hroom.ne (hiff.mp hterm)⟩

theorem one_option_not_terminated : ∃ s, Run (fun regs op => op = .free → regs = []) sampleStart []
    [sampleOption ['a'] 7] [100] s ∧ ¬ TableTerminated s [100] [sampleOption ['a'] 7]
    ["prog".toList] [] := by
  have hrun := sample_one (fun regs op => op = .free → regs = []) ['a'] 7 fun he =>
    absurd he (by decide)
  have hlists := (hrun.keeps (fun _ hfree => hfree rfl) (Registry.Inv.empty []) rfl).lists
  exact ⟨_,hrun,hlists.not_tableTerminated (List.cons_ne_nil _ _) (by decide +kernel)⟩

theorem follows_dispatch {f : Unit → Opt β} {post : A → β → Prop} {g : Getopt}
    (hlinked : Linked s.nodes p xs)
    (hlive : ∀ x ∈ xs, x ∈ s.reg.live) (hnames : ∀ r ∈ s.registrations xs, r.opt.name ≠ none)
    (hi : g.idx < regs.length) (hname : regs[g.idx].opt.name ≠ none)
    (h : ((Program.iterate (s.dispatchTurn (table regs) g) p).bind f).Follows P b post) :
    ((invokeFound (found (s.registrations xs) regs[g.idx].opt.name) g).bind f).Follows P b post := by
  induction xs generalizing p with
  | nil =>
    have hp : p = 0 := hlinked
    have hdone : Program.Yields (Program.iterate (s.dispatchTurn (table regs) g) p) [] () :=
      .silent_done (if_pos hp)
    exact h.of_silent hdone
  | cons x xs ih =>
    obtain ⟨rfl,hrest⟩ := hlinked
    have hturn := h.unfold
    rw [Program.unfold] at hturn
    rcases dispatchTurn_found (s.registrations xs) (hlive p List.mem_cons_self) hi hname
      (hnames _ List.mem_cons_self) with heq | ⟨heq,hfound⟩
    · rw [heq,Program.bind_assoc] at hturn
      exact hturn
    · have hsplit : s.registrations (p :: xs) = (s.nodes p).registration :: s.registrations xs := rfl
      rw [heq] at hturn
      rw [hsplit,hfound]
      exact ih hrest (fun y hy => hlive y (List.mem_cons_of_mem _ hy))
        (fun r hr => hnames r (List.mem_cons_of_mem _ hr)) hturn

/-- Each option that is found has the function of the first one that `strncmp` does not tell from
it. -/
def Resolves (regs : List Registration) (gs : List Getopt) : Prop :=
  ∀ g ∈ gs, g.ret = 0 →
    (regs[g.idx]?.bind fun r => found regs r.opt.name).map Registration.func =
      regs[g.idx]?.map Registration.func

instance (regs : List Registration) (gs : List Getopt) : Decidable (Resolves regs gs) :=
  inferInstanceAs (Decidable (∀ g ∈ gs, g.ret = 0 →
    (regs[g.idx]?.bind fun r => found regs r.opt.name).map Registration.func =
      regs[g.idx]?.map Registration.func))

theorem due_eq {g : Getopt} (hi : g.idx < regs.length) : due regs g = callOf regs[g.idx].func g := by
  rw [due,List.getElem?_eq_getElem hi]
  rfl

theorem callOf_inj {func func' : ℕ} {g : Getopt} (h : callOf func g = callOf func' g) :
    func = func' := by
  simp only [callOf] at h
  split at h
  · split at h
    · exact congrArg Prod.fst (Option.some.inj h)
    · exact absurd h (by simp)
  · split at h
    · exact absurd h (by simp)
    · omega

theorem found_isSome {r : Registration} (hr : r ∈ regs) : ∃ r', found regs r.opt.name = some r' := by
  rw [← Option.isSome_iff_exists,found,List.find?_isSome]
  exact ⟨r,hr,by simp⟩

theorem invokeFound_due {g : Getopt} (hi : g.idx < regs.length)
    (h : (found regs regs[g.idx].opt.name).map Registration.func = some regs[g.idx].func) :
    Program.Ends (dispatching regs gs) (invokeFound (found regs regs[g.idx].opt.name) g) (due regs g)
      fun b _ => b = none := by
  obtain ⟨r,hfound,hfunc⟩ := Option.map_eq_some_iff.mp h
  rw [hfound,due_eq hi,invokeFound,invoke,callOf,hfunc]
  split
  · exact Program.Ends.bind (Program.Ends.perform rfl fun _ _ => .ret rfl)
  · exact .ret rfl

theorem Resolves.getopts (h : s.Holds xs) (hregs : s.registrations xs = regs)
    (hnames : ∀ r ∈ regs, r.opt.name ≠ none)
    (hgs : InTable regs gs) (hres : Resolves regs gs) :
    (getopts s argv regs).Follows (dispatching regs gs) none fun b _ => b = none := by
  apply Program.Follows.iterate (fun b _ => b = none) rfl
  rintro _ _ rfl
  have hnext (g : Getopt) : (dispatching regs gs).next none (.inr (.getoptLong argv (table regs))) g =
      if g.ret = 0 then due regs g else none := rfl
  refine (ends_getoptTurn h hregs hnames rfl (fun g _ hret => ?_) (fun g _ _ hzero => ?_)
    fun g hg hzero => ?_).follows
  · rw [hnext,if_neg (by rw [hret]; decide)]
  · rw [hnext,if_neg hzero]
  · have hmem : g ∈ gs := hg.resolve_left fun hend => absurd (hend.symm.trans hzero) (by decide)
    have hi := (hgs g hmem).2 hzero
    have hfunc := hres g hmem hzero
    rw [List.getElem?_eq_getElem hi] at hfunc
    refine ⟨hi,?_⟩
    rw [hnext,if_pos hzero]
    exact invokeFound_due hi hfunc

/-- Before `getopt_long` is called again, the call that is due has been made. -/
theorem follows_invokeFound {all : List Getopt} {f : Unit → Opt β} {r : Registration} {g : Getopt}
    {post : (List ℕ × List Getopt) × Option (ℕ × Option Text) → β → Prop}
    {b : Option (ℕ × Option Text)}
    (h : ((invokeFound (some r) g).bind fun _ => (getopts s argv regs).bind f).Follows
      (environment.both (dispatching regs all)) ((heap,gs),b) post) :
    b = callOf r.func g ∧
      ((getopts s argv regs).bind f).Follows (environment.both (dispatching regs all))
      ((heap,gs),none) post := by
  rw [invokeFound,invoke] at h
  by_cases hfunc : r.func = 0
  · rw [if_neg (not_not.mpr hfunc)] at h
    have hb : b = none := h.unfold.1.2
    rw [callOf,if_neg (not_not.mpr hfunc)]
    subst hb
    exact ⟨rfl,h⟩
  · rw [if_pos hfunc] at h
    rw [callOf,if_pos hfunc]
    exact ⟨h.1.2,h.2 (0 : ℤ) ⟨trivial,trivial⟩⟩

theorem follows_answer {all : List Getopt} {f : Unit → Opt β} {g : Getopt}
    {post : (List ℕ × List Getopt) × Option (ℕ × Option Text) → β → Prop} (hret : g.ret ≠ -1)
    (hmem : g ∈ all)
    (h : ((getopts s argv regs).bind f).Follows (environment.both (dispatching regs all))
      ((heap,g :: gs),none) post) :
    if g.ret = 0 then
      ((Program.iterate (s.dispatchTurn (table regs) g) s.head).bind fun _ =>
        (getopts s argv regs).bind f).Follows
        (environment.both (dispatching regs all)) ((heap,gs),due regs g) post
    else ((getopts s argv regs).bind f).Follows (environment.both (dispatching regs all))
        ((heap,gs),none) post := by
  have hturn := h.unfold.2 g ⟨rfl,Or.inr hmem⟩
  have hnext : (environment.both (dispatching regs all)).next ((heap,g :: gs),none)
      (.inr (.getoptLong argv (table regs))) g =
      ((heap,gs),if g.ret = 0 then due regs g else none) := rfl
  rw [hnext] at hturn
  simp only [Program.ret_bind,if_neg hret] at hturn
  by_cases hzero : g.ret = 0
  · rw [if_neg (not_not.mpr hzero),if_pos hzero] at hturn
    rw [if_pos hzero,← Program.bind_assoc]
    exact hturn
  · rw [if_pos hzero,if_neg hzero] at hturn
    rw [if_neg hzero]
    exact hturn

/-- If the loop calls what is due, each option that is found has the function that is called for
it. -/
theorem resolves_of_getopts {all : List Getopt} {f : Unit → Opt β}
    {post : (List ℕ × List Getopt) × Option (ℕ × Option Text) → β → Prop} (h : s.Holds xs)
    (hnames : ∀ r ∈ s.registrations xs, r.opt.name ≠ none) (hgs : InTable (s.registrations xs) gs)
    (hall : ∀ g ∈ gs, g ∈ all) (hloop : ((getopts s argv (s.registrations xs)).bind f).Follows
      (environment.both (dispatching (s.registrations xs) all)) ((heap,gs),none) post) :
    Resolves (s.registrations xs) gs := by
  induction gs with
  | nil => exact fun g hg => absurd hg List.not_mem_nil
  | cons g gs ih =>
    obtain ⟨⟨hret,hi⟩,hrest⟩ := List.forall_mem_cons.mp hgs
    obtain ⟨hmem,hsub⟩ := List.forall_mem_cons.mp hall
    have hanswer := follows_answer hret hmem hloop
    by_cases hzero : g.ret = 0
    · have hi := hi hzero
      rw [if_pos hzero] at hanswer
      have hfound := follows_dispatch h.linked h.live hnames hi (hnames _ (List.getElem_mem hi))
        hanswer
      obtain ⟨r,hr⟩ := found_isSome (List.getElem_mem hi)
      rw [hr] at hfound
      obtain ⟨hdue,hgo⟩ := follows_invokeFound hfound
      rw [due_eq hi] at hdue
      refine List.forall_mem_cons.mpr ⟨fun _ => ?_,ih hrest hsub hgo⟩
      rw [List.getElem?_eq_getElem hi,Option.bind_some,hr,Option.map_some,Option.map_some,
        callOf_inj hdue]
    · rw [if_neg hzero] at hanswer
      exact List.forall_mem_cons.mpr ⟨fun hbad => absurd hbad hzero,ih hrest hsub hanswer⟩

theorem Lists.resolves (h : s.Lists regs) (hroom : s.reg.live.length < memoryAllocateMaxTimes)
    (hgs : InTable regs gs)
    (hdisp : Dispatches s heap regs argv gs) : Resolves regs gs := by
  obtain ⟨⟨xs,hxs,rfl⟩,hnames⟩ := h
  by_cases hnil : xs = []
  · subst hnil
    exact fun g hg hzero => absurd ((hgs g hg).2 hzero) (Nat.not_lt_zero _)
  · obtain ⟨reg,heap,f,hlive,hloop⟩ :=
      follows_getopts (dispatching_allocating _ _) hxs hnil hroom (Program.Ends.follows hdisp)
    exact resolves_of_getopts
      (s := { s with reg := reg }) (hxs.withReg hlive) hnames hgs (fun _ hg => hg) hloop

theorem Run.registered (inv : start.reg.Inv a) (hhead : start.head = 0)
    (hrun : Run Registers start a regs heap s) :
    Keeps s heap regs := by
  refine hrun.keeps (fun regs hfree => ?_) inv hhead
  obtain ⟨_,_,_,hbad,_⟩ := hfree
  exact absurd hbad (by simp)

/-- After any registrations under distinct names `opt_run` calls the functions of the options that
`getopt_long` finds if and only if it gets no memory for the table, or each of these options has the
function of the first one that agrees with it in the first eight characters. -/
theorem dispatches_iff (inv : start.reg.Inv a) (hhead : start.head = 0)
    (hrun : Run Registers start a regs heap s) (argv : List Text) (hgs : InTable regs gs) :
    Dispatches s heap regs argv gs ↔ s.reg.live.length = memoryAllocateMaxTimes ∨
      Resolves regs gs := by
  have hkeeps := hrun.registered inv hhead
  constructor
  · intro hdisp
    refine or_iff_not_imp_left.mpr fun hfull => ?_
    exact hkeeps.lists.resolves (lt_of_le_of_ne s.reg.live_length_le hfull) hgs hdisp
  · intro hcond
    have hfollows : (s.optRun argv).Follows (dispatching regs gs) none fun b _ => b = none := by
      obtain ⟨⟨xs,hxs,rfl⟩,hnames⟩ := hkeeps.lists
      refine follows_optRun (dispatching_allocating _ _) rfl hxs fun hroom reg hlive => ?_
      exact (hcond.resolve_left hroom.ne).getopts (hxs.withReg hlive) rfl hnames hgs
    exact ((ends_optRun hkeeps argv hgs).both hfollows).mono fun _ _ hs => hs.2

/-- `getopt_long` finds the second option, with an argument. -/
def sampleAnswer : Getopt := ⟨0,1,some ['x']⟩

theorem inTable_sample (name name' : Text) : InTable [sampleOption name 7,sampleOption name' 8]
    [sampleAnswer] := by
  intro g hg
  obtain rfl := List.mem_singleton.mp hg
  exact ⟨by decide,fun _ => one_lt_two⟩

theorem dispatches_iff_sample : ∃ s,
    Run Registers sampleStart [] [sampleOption "input".toList 7,sampleOption "inputs".toList 8]
      [200,100] s ∧
    Dispatches s [200,100] [sampleOption "input".toList 7,sampleOption "inputs".toList 8]
      ["prog".toList,"--inputs".toList,['x']] [sampleAnswer] := by
  obtain ⟨s,-,hrun⟩ := sample_two Registers "input".toList "inputs".toList 7 8
    ⟨_,_,_,rfl,rfl,rfl,fun r hr => absurd hr List.not_mem_nil⟩ ⟨_,_,_,rfl,rfl,rfl,by decide⟩
  have hiff := dispatches_iff (Registry.Inv.empty []) rfl hrun ["prog".toList,"--inputs".toList,['x']] (inTable_sample _ _)
  exact ⟨s,hrun,hiff.mpr (Or.inr (by decide))⟩

theorem prefix_not_dispatched : ∃ s,
    Run Registers sampleStart []
      [sampleOption "input-file".toList 7,sampleOption "input-fifo".toList 8] [200,100] s ∧
    ¬ Dispatches s [200,100] [sampleOption "input-file".toList 7,sampleOption "input-fifo".toList 8]
      ["prog".toList,"--input-fifo".toList,['x']] [sampleAnswer] := by
  obtain ⟨s,hroom,hrun⟩ := sample_two Registers "input-file".toList "input-fifo".toList 7 8
    ⟨_,_,_,rfl,rfl,rfl,fun r hr => absurd hr List.not_mem_nil⟩ ⟨_,_,_,rfl,rfl,rfl,by decide⟩
  have hlists := (hrun.registered (Registry.Inv.empty []) rfl).lists
  exact ⟨s,hrun,fun hdisp => absurd (hlists.resolves hroom (inTable_sample _ _) hdisp) (by decide)⟩

end OptList
end LixRtos
