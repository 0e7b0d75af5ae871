import LixRtos.Options

/-! Runs of the calls of `opt.c`. As long as `opt_free` finds nothing to release, the options are a
list in the order of registration; it does not set `head` to `NULL`. -/
namespace LixRtos

structure Registration where
  opt : LongOption
  func : ℕ
  desc : Option Text
  deriving DecidableEq

def SimpleList.registration (node : SimpleList) : Registration := ⟨node.opt,node.func,node.desc⟩

namespace OptList

/-- From `p` on the nodes are `xs`, and `NULL` comes after them. -/
def Linked (nodes : ℕ → SimpleList) : ℕ → List ℕ → Prop
  | p, [] => p = 0
  | p, x :: xs => p = x ∧ Linked nodes (nodes x).next xs

/-- The nodes are `xs`, and none of them has been released. -/
structure Holds (s : OptList) (xs : List ℕ) : Prop where
  linked : Linked s.nodes s.head xs
  nodup : xs.Nodup
  live : ∀ x ∈ xs, x ∈ s.reg.live

def registrations (s : OptList) (xs : List ℕ) : List Registration := xs.map fun x =>
    (s.nodes x).registration

/-- The options that can be reached from `head` are `regs`, in this order and with names. -/
def Lists (s : OptList) (regs : List Registration) : Prop :=
  (∃ xs, s.Holds xs ∧ s.registrations xs = regs) ∧ ∀ r ∈ regs, r.opt.name ≠ none

inductive Op
  | reg (opt : LongOption) (func : ℕ) (desc : Option Text)
  | usage (filename : Option Text)
  | run (argv : List Text)
  | free
  deriving DecidableEq

def Op.call (s : OptList) : Op → Opt (ℤ × OptList)
  | .reg opt func desc => s.optReg opt func desc
  | .usage filename => do
    let ret ← s.optUsage filename
    pure (ret,s)
  | .run argv => s.optRun argv
  | .free => s.optFree

/-- The successful registrations since the last `opt_free`. -/
def Op.after (ret : ℤ) (regs : List Registration) : Op → List Registration
  | .reg opt func desc => if ret = 0 then regs ++ [⟨opt,func,desc⟩] else regs
  | .usage _ => regs
  | .run _ => regs
  | .free => []

/-- No access to a released node or outside of a block. The state has the allocated blocks, and what
`getopt_long` gives for the arguments before it gives -1. -/
def environment : Program.Protocol (SysCall ⊕ OptCall) OptAnswer (List ℕ × List Getopt) where
  allows
    | s, .inl c => (libc True False).allows s.1 c
    | _, .inr (.stale _) => False
    | _, .inr (.beyond _) => False
    | _, .inr _ => True
  answers
    | s, .inl c, r => (libc True False).answers s.1 c r
    | s, .inr (.getoptLong _ _), g =>
      match s.2 with
      | [] => g.ret = -1
      | g' :: _ => g = g'
    | _, .inr _, _ => True
  next
    | s, .inl c, r => ((libc True False).next s.1 c r,s.2)
    | s, .inr (.getoptLong _ _), _ => (s.1,s.2.tail)
    | s, .inr _, _ => s

/-- The indices of the options that `getopt_long` finds are in the table. -/
def InTable (regs : List Registration) (gs : List Getopt) : Prop :=
  ∀ g ∈ gs, g.ret ≠ -1 ∧ (g.ret = 0 → g.idx < regs.length)

/-- Calls one after another, each of which meets `ok`, with what is to be registered, the allocated
blocks and the memory of `opt.c`. -/
inductive Run (ok : List Registration → Op → Prop) (start : OptList) (a : List ℕ) :
    List Registration → List ℕ → OptList → Prop
  | nil : Run ok start a [] a start
  | snoc {regs : List Registration} {heap : List ℕ} {s s' : OptList} {ret : ℤ} {gs : List Getopt}
      {tr : List (Program.Exchange (SysCall ⊕ OptCall) OptAnswer)} (op : Op)
      (h : Run ok start a regs heap s)
      (hop : ok regs op) (hgs : InTable regs gs) (hcall : Program.Yields (op.call s) tr (ret,s'))
      (hanswers : environment.Accepts (heap,gs) tr) :
      Run ok start a (op.after ret regs) (environment.final (heap,gs) tr).1 s'

variable {s s' start : OptList} {p x v : ℕ} {gs : List Getopt} {xs ys a : List ℕ}
  {regs : List Registration} {nodes : ℕ → SimpleList}
  {reg : Registry} {argv : List Text} {α β : Type} {A : Type}

theorem load_eq (h : x ∈ s.reg.live) : s.load x = .ret (s.nodes x) := by
  rw [load,if_neg (Registry.live_ne_zero h),if_pos h]
  rfl

theorem setNext_eq (h : x ∈ s.reg.live) :
    s.setNext x v = .ret { s with nodes := Function.update s.nodes x { s.nodes x with next := v } } := by
  rw [setNext,if_neg (Registry.live_ne_zero h),if_pos h]
  rfl

theorem Linked.congr {nodes' : ℕ → SimpleList} (h : Linked nodes p xs)
    (hnext : ∀ x ∈ xs, (nodes' x).next = (nodes x).next) :
    Linked nodes' p xs := by
  induction xs generalizing p with
  | nil => exact h
  | cons x xs ih =>
    refine ⟨h.1,?_⟩
    rw [hnext x List.mem_cons_self]
    exact ih h.2 fun y hy => hnext y (List.mem_cons_of_mem _ hy)

theorem Holds.head_eq_zero (h : s.Holds xs) : s.head = 0 ↔ xs = [] := by
  cases xs with
  | nil => exact iff_of_true h.linked rfl
  | cons x xs =>
    have hx := Registry.live_ne_zero (h.live x List.mem_cons_self)
    rw [h.linked.1]
    exact iff_of_false hx (List.cons_ne_nil x xs)

theorem count_yields (hlinked : Linked s.nodes p xs) (hlive : ∀ x ∈ xs, x ∈ s.reg.live) (n : ℕ) :
    Program.Yields (Program.iterate (fun (list,count) => s.countTurn list count) (p,n)) []
      (n+xs.length) := by
  induction xs generalizing p n with
  | nil =>
    have hp : p = 0 := hlinked
    exact .silent_done (if_pos hp)
  | cons x xs ih =>
    obtain ⟨rfl,hrest⟩ := hlinked
    have hx := hlive p List.mem_cons_self
    have hturn : s.countTurn p n = .ret (.inl ((s.nodes p).next,n+1)) := by
      rw [countTurn,if_neg (Registry.live_ne_zero hx),load_eq hx]
      rfl
    have hlen : n+(p :: xs).length = n+1+xs.length := by
      rw [List.length_cons]
      omega
    rw [hlen]
    exact .silent_again hturn (ih hrest (fun y hy => hlive y (List.mem_cons_of_mem _ hy)) (n+1))

theorem optLen_yields (h : s.Holds xs) : Program.Yields s.optLen [] xs.length := by
  rw [optLen]
  split
  next hhead =>
    obtain rfl := h.head_eq_zero.mp hhead
    exact .ret 0
  next =>
    have hwalk := count_yields h.linked h.live 0
    rwa [Nat.zero_add] at hwalk

theorem findLast_yields (hlinked : Linked s.nodes p (ys ++ [x]))
    (hlive : ∀ y ∈ ys ++ [x], y ∈ s.reg.live) :
    Program.Yields (Program.iterate s.lastTurn p) [] x := by
  induction ys generalizing p with
  | nil =>
    obtain ⟨rfl,hnext⟩ := hlinked
    have hx := hlive p (by simp)
    have hend : (s.nodes p).next = 0 := hnext
    have hturn : s.lastTurn p = .ret (.inr p) := by
      rw [lastTurn,load_eq hx,Program.bind_eq,Program.ret_bind,if_neg (not_not.mpr hend)]
      rfl
    exact .silent_done hturn
  | cons y ys ih =>
    obtain ⟨rfl,hrest⟩ := hlinked
    have hx := hlive p (by simp)
    have hnext : (s.nodes p).next ∈ ys ++ [x] := by
      cases ys with
      | nil => exact hrest.1 ▸ List.mem_cons_self
      | cons z ys => exact hrest.1 ▸ List.mem_cons_self
    have hne := Registry.live_ne_zero (hlive _ (List.mem_cons_of_mem _ hnext))
    have hturn : s.lastTurn p = .ret (.inl (s.nodes p).next) := by
      rw [lastTurn,load_eq hx,Program.bind_eq,Program.ret_bind,if_pos hne]
      rfl
    exact .silent_again hturn (ih hrest fun z hz => hlive z (List.mem_cons_of_mem _ hz))

def table (regs : List Registration) : OptionBlock := regs.map fun r => some r.opt

theorem copy_yields (hlinked : Linked s.nodes p xs) (hlive : ∀ x ∈ xs, x ∈ s.reg.live)
    (pre post : OptionBlock)
    (hlen : post.length = xs.length) :
    Program.Yields (Program.iterate (fun (copy,dest,table) => s.copyTurn copy dest table)
      (p,pre.length,pre ++ post)) []
      (pre ++ table (s.registrations xs)) := by
  induction xs generalizing p pre post with
  | nil =>
    have hp : p = 0 := hlinked
    obtain rfl := List.length_eq_zero_iff.mp hlen
    exact .silent_done (if_pos hp)
  | cons x xs ih =>
    obtain ⟨rfl,hrest⟩ := hlinked
    cases post with
    | nil => exact absurd hlen (by simp)
    | cons e post =>
      have hx := hlive p List.mem_cons_self
      have hset : (pre ++ e :: post).set pre.length (some (s.nodes p).opt) = pre ++
          [some (s.nodes p).opt] ++ post := by
        simp
      have hturn : s.copyTurn p pre.length (pre ++ e :: post) =
          .ret (.inl ((s.nodes p).next,(pre ++ [some (s.nodes p).opt]).length,pre ++
            [some (s.nodes p).opt] ++ post)) := by
        rw [copyTurn,if_neg (Registry.live_ne_zero hx),load_eq hx,Program.bind_eq,Program.ret_bind,
          if_pos (by simp),hset,List.length_append]
        rfl
      have hrec := ih hrest (fun y hy => hlive y (List.mem_cons_of_mem _ hy))
        (pre ++ [some (s.nodes p).opt]) post
        (by simpa using hlen)
      have hall : pre ++ table (s.registrations (p :: xs)) =
          pre ++ [some (s.nodes p).opt] ++ table (s.registrations xs) := by
        simp [table,registrations,SimpleList.registration]
      rw [hall]
      exact .silent_again hturn hrec

theorem copyOptions_yields (h : s.Holds xs) :
    Program.Yields (s.copyOptions xs.length) [] (table (s.registrations xs)) :=
  copy_yields h.linked h.live [] _ List.length_replicate

theorem lib_omalloc {size : ℕ} (hsize : size ≠ 0) :
    Opt.lib (omalloc reg size) = .ret (0,reg) ∧ reg.live.length = memoryAllocateMaxTimes ∨
      ∃ grown : ℕ → Registry, (∀ p, p ≠ 0 → (grown p).live.Perm (p :: reg.live)) ∧
        Opt.lib (omalloc reg size) = (Program.call (Sum.inl (SysCall.malloc size)) fun p : ℕ =>
          .ret (if p = 0 then (0,reg) else (p,grown p)) : Opt (ℕ × Registry)) := by
  rcases @omalloc_cases reg size hsize with ⟨hret,hfull⟩ | ⟨grown,hgrown,hcall⟩
  · rw [hret]
    exact Or.inl ⟨rfl,hfull⟩
  · refine Or.inr ⟨grown,hgrown,?_⟩
    rw [hcall]
    refine congrArg (Program.call (C := SysCall ⊕ OptCall)
      (R := OptAnswer) (Sum.inl (SysCall.malloc size)))
      (funext fun p : ℕ => ?_)
    by_cases hp : p = 0
    · simp [hp,Opt.lib]
    · simp [hp,Opt.lib]

theorem lib_ofree (h : p ∈ reg.live) : ∃ rest : Registry, reg.live.Perm (p :: rest.live) ∧
    Opt.lib (ofree reg p) =
      (Program.call (Sum.inl (SysCall.free p)) fun _ => .ret (0,rest) : Opt (ℤ × Registry)) := by
  obtain ⟨rest,hperm,hcall⟩ := ofree_registered h
  rw [hcall]
  exact ⟨rest,hperm,rfl⟩

theorem ends_omalloc {size : ℕ} (hsize : size ≠ 0) :
    Program.Ends environment (Opt.lib (omalloc reg size)) (a,gs) fun s' r =>
      r = (0,reg) ∧ s' = (a,gs) ∨
        r.1 ≠ 0 ∧ r.1 ∉ a ∧ s' = (r.1 :: a,gs) ∧ r.2.live.Perm (r.1 :: reg.live) := by
  rcases @lib_omalloc reg size hsize with ⟨hret,-⟩ | ⟨grown,hgrown,hcall⟩
  · rw [hret]
    exact .ret (Or.inl ⟨rfl,rfl⟩)
  · rw [hcall]
    refine .call trivial ?_
    rintro (p : ℕ) (⟨rfl,-⟩ | ⟨hp,hfresh⟩)
    · exact .ret (Or.inl ⟨rfl,rfl⟩)
    · refine .ret (Or.inr ?_)
      rw [if_neg hp]
      exact ⟨hp,hfresh,congrArg (·,gs) (if_neg hp),hgrown p hp⟩

theorem ends_ofree (inv : reg.Inv a) (h : p ∈ reg.live) :
    Program.Ends environment (Opt.lib (ofree reg p)) (a,gs) fun s' r =>
      s' = (a.erase p,gs) ∧ reg.live.Perm (p :: r.2.live) := by
  obtain ⟨rest,hperm,hcall⟩ := lib_ofree h
  rw [hcall]
  exact .call (inv.allocated p h) fun _ _ => .ret ⟨rfl,hperm⟩

structure Keeps (s : OptList) (a : List ℕ) (regs : List Registration) : Prop where
  inv : s.reg.Inv a
  lists : s.Lists regs

theorem Linked.append (hlinked : Linked nodes p (ys ++ [x])) {nodes' : ℕ → SimpleList}
    (hsame : ∀ y ∈ ys, (nodes' y).next = (nodes y).next) (hx : (nodes' x).next = v)
    (hv : (nodes' v).next = 0) :
    Linked nodes' p (ys ++ [x,v]) := by
  induction ys generalizing p with
  | nil => exact ⟨hlinked.1,hx,hv⟩
  | cons y ys ih =>
    refine ⟨hlinked.1,?_⟩
    rw [hsame y List.mem_cons_self]
    exact ih hlinked.2 fun z hz => hsame z (List.mem_cons_of_mem _ hz)

def withNode (s : OptList) (node : ℕ) (new : SimpleList) (reg : Registry) : OptList :=
  ⟨s.head,Function.update s.nodes node new,reg⟩

def link (s : OptList) (last node : ℕ) : OptList :=
  { s with nodes := Function.update s.nodes last { s.nodes last with next := node } }

theorem withNode_of_ne {node y : ℕ} {new : SimpleList} (hy : y ≠ node) :
    (s.withNode node new reg).nodes y = s.nodes y :=
  Function.update_of_ne hy ..

theorem holds_first {node : ℕ} {new : SimpleList} (hlive : node ∈ reg.live) (hend : new.next = 0) :
    Holds { s.withNode node new reg with head := node } [node] ∧
      registrations { s.withNode node new reg with head := node } [node] = [new.registration] := by
  have hself : (s.withNode node new reg).nodes node = new := Function.update_self ..
  have hnext : ((s.withNode node new reg).nodes node).next = 0 := by
    rw [hself]
    exact hend
  refine ⟨⟨⟨rfl,hnext⟩,List.nodup_singleton node,fun y hy => ?_⟩,?_⟩
  · obtain rfl := List.mem_singleton.mp hy
    exact hlive
  · exact congrArg (fun n => [SimpleList.registration n]) hself

theorem Holds.link {node : ℕ} {new : SimpleList} (h : s.Holds (ys ++ [x])) (hfresh : node ∉ ys ++ [x])
    (hlive : ∀ y ∈ ys ++ [x] ++ [node], y ∈ reg.live) (hend : new.next = 0) :
    ((s.withNode node new reg).link x node).Holds (ys ++ [x] ++ [node]) ∧
      ((s.withNode node new reg).link x node).registrations (ys ++ [x] ++ [node]) =
        s.registrations (ys ++ [x]) ++ [new.registration] := by
  have hold (y : ℕ) (hy : y ∈ ys ++ [x]) : (s.withNode node new reg).nodes y = s.nodes y :=
    withNode_of_ne fun he => hfresh (he ▸ hy)
  have hne : node ≠ x := fun he => hfresh (he ▸ by simp)
  have hnode : ((s.withNode node new reg).link x node).nodes node = new :=
    (Function.update_of_ne hne ..).trans (Function.update_self ..)
  have hlast : (((s.withNode node new reg).link x node).nodes x).next = node := by simp [OptList.link]
  obtain ⟨_,_,hapart⟩ := List.nodup_append.mp h.nodup
  have hsame (y : ℕ) (hy : y ∈ ys) :
      (((s.withNode node new reg).link x node).nodes y).next = (s.nodes y).next := by
    rw [← hold y (List.mem_append_left _ hy)]
    exact congrArg SimpleList.next (Function.update_of_ne (hapart y hy x List.mem_cons_self) ..)
  have hkeep (y : ℕ) (hy : y ∈ ys ++ [x]) :
      (((s.withNode node new reg).link x node).nodes y).registration = (s.nodes y).registration := by
    rw [← hold y hy]
    by_cases he : y = x
    · simp [OptList.link,he,SimpleList.registration]
    · simp [OptList.link,he]
  have hlinked : Linked ((s.withNode node new reg).link x node).nodes s.head (ys ++ [x,node]) :=
    h.linked.append hsame hlast (by rw [hnode]; exact hend)
  refine ⟨⟨?_,?_,hlive⟩,?_⟩
  · rw [List.append_assoc]
    exact hlinked
  · refine List.nodup_append.mpr ⟨h.nodup,List.nodup_singleton node,fun y hy z hz => ?_⟩
    obtain rfl := List.mem_singleton.mp hz
    exact fun he => hfresh (he ▸ hy)
  · rw [registrations,List.map_append,List.map_congr_left hkeep,List.map_singleton,hnode]
    rfl

theorem ends_optReg (h : Keeps s a regs) (opt : LongOption) (func : ℕ) (desc : Option Text) :
    Program.Ends environment (s.optReg opt func desc) (a,gs) fun s' r =>
      Keeps r.2 s'.1 (if r.1 = 0 then regs ++ [⟨opt,func,desc⟩] else regs) := by
  obtain ⟨inv,⟨xs,hxs,rfl⟩,hnames⟩ := h
  rw [optReg]
  split
  next => exact .ret ⟨inv,⟨xs,hxs,rfl⟩,hnames⟩
  next hname =>
  refine Program.Ends.bind ((ends_omalloc (by decide)).mono ?_)
  rintro _ ⟨node,reg⟩ (⟨hret,rfl⟩ | ⟨hnode,hfresh,rfl,hperm⟩)
  · obtain ⟨rfl,rfl⟩ := Prod.mk.inj hret
    exact .ret ⟨inv,⟨xs,hxs,rfl⟩,hnames⟩
  have hnot : node ∉ xs := fun hmem => hfresh (inv.allocated node (hxs.live node hmem))
  have hgrow := inv.grow hfresh hperm
  have hlive : ∀ x ∈ xs ++ [node], x ∈ reg.live := by
    intro x hx
    apply hperm.mem_iff.mpr
    rcases List.mem_append.mp hx with hx | hx
    · exact List.mem_cons_of_mem _ (hxs.live x hx)
    · exact List.mem_singleton.mp hx ▸ List.mem_cons_self
  have hnames' : ∀ r ∈ s.registrations xs ++ [⟨opt,func,desc⟩], r.opt.name ≠ none := by
    intro r hr
    rcases List.mem_append.mp hr with hr | hr
    · exact hnames r hr
    · exact List.mem_singleton.mp hr ▸ hname
  rw [if_neg hnode]
  dsimp only
  by_cases hhead : s.head = 0
  · obtain rfl := hxs.head_eq_zero.mp hhead
    have hfirst := holds_first
      (s := s) (hlive node (by simp)) (show (⟨opt,desc,func,0⟩ : SimpleList).next = 0 from rfl)
    rw [if_pos hhead]
    exact .ret ⟨hgrow,⟨[node],hfirst⟩,hnames'⟩
  · obtain ⟨ys,x,rfl⟩ := (List.eq_nil_or_concat' xs).resolve_left (mt hxs.head_eq_zero.mpr hhead)
    have hlink := hxs.link hnot hlive (show (⟨opt,desc,func,0⟩ : SimpleList).next = 0 from rfl)
    have hlive' : ∀ y ∈ ys ++ [x], y ∈ reg.live := fun y hy => hlive y (List.mem_append_left _ hy)
    have hlinked : Linked (s.withNode node ⟨opt,desc,func,0⟩ reg).nodes s.head (ys ++ [x]) :=
      hxs.linked.congr fun y hy => congrArg SimpleList.next (withNode_of_ne fun he => hnot (he ▸ hy))
    have hlast : Program.Yields
        (Program.iterate (s.withNode node ⟨opt,desc,func,0⟩ reg).lastTurn s.head) [] x :=
      findLast_yields hlinked hlive'
    rw [if_neg hhead]
    refine Program.Ends.bind (hlast.silent_ends.mono ?_)
    rintro _ _ ⟨rfl,rfl⟩
    rw [setNext_eq (hlive' _ (by simp))]
    exact .ret ⟨hgrow,⟨_,hlink⟩,hnames'⟩

theorem usage_ends (hlinked : Linked s.nodes p xs) (hlive : ∀ x ∈ xs, x ∈ s.reg.live)
    (hnames : ∀ x ∈ xs, (s.nodes x).opt.name ≠ none) :
    Program.Ends environment (Program.iterate s.usageTurn p) (a,gs) fun s' _ => s' = (a,gs) := by
  induction xs generalizing p with
  | nil =>
    have hp : p = 0 := hlinked
    have hturn : s.usageTurn p = .ret (.inr ()) := if_pos hp
    exact ((Program.Yields.silent_done hturn).silent_ends).mono fun _ _ h => h.1
  | cons x xs ih =>
    obtain ⟨rfl,hrest⟩ := hlinked
    have hx := hlive p List.mem_cons_self
    obtain ⟨name,hname⟩ := Option.ne_none_iff_exists'.mp (hnames p List.mem_cons_self)
    have hrec := ih hrest (fun y hy => hlive y (List.mem_cons_of_mem _ hy)) fun y hy =>
      hnames y (List.mem_cons_of_mem _ hy)
    apply Program.Ends.iterate
    rw [usageTurn,if_neg (Registry.live_ne_zero hx),load_eq hx,Program.bind_eq,Program.ret_bind,hname]
    refine .call trivial fun _ _ => ?_
    cases (s.nodes p).desc with
    | none => exact .call trivial fun _ _ => .ret hrec
    | some desc => exact .call trivial fun _ _ => .call trivial fun _ _ => .ret hrec

theorem ends_optUsage (h : s.Lists regs) (filename : Option Text) :
    Program.Ends environment (s.optUsage filename) (a,gs) fun s' _ => s' = (a,gs) := by
  obtain ⟨⟨xs,hxs,rfl⟩,hnames⟩ := h
  have hnames' (x : ℕ) (hx : x ∈ xs) : (s.nodes x).opt.name ≠ none :=
    hnames _ (List.mem_map.mpr ⟨x,hx,rfl⟩)
  have hlines : Program.Ends environment
      (if s.head = 0 then pure 0
      else do
        Opt.request (.printRaw "[ operation ]\n".toList)
        Program.iterate s.usageTurn s.head
        Opt.request (.printRaw ['\n'])
        pure 0 : Opt ℤ) (a,gs) fun s' _ => s' = (a,gs) := by
    split
    · exact .ret rfl
    · refine Program.Ends.bind (Program.Ends.perform trivial fun _ _ => ?_)
      refine Program.Ends.bind ((usage_ends hxs.linked hxs.live hnames').mono ?_)
      rintro _ _ rfl
      exact Program.Ends.bind (Program.Ends.perform trivial fun _ _ => .ret rfl)
  cases filename with
  | none => exact hlines
  | some filename => exact Program.Ends.bind (Program.Ends.perform trivial fun _ _ => hlines)

theorem Holds.withReg (h : s.Holds xs) (hlive : ∀ x ∈ xs, x ∈ reg.live) :
    Holds { s with reg := reg } xs :=
  ⟨h.linked,h.nodup,hlive⟩

theorem entryName_eq {i : ℕ} (hi : i < regs.length) :
    entryName (table regs) i = .ret regs[i].opt.name := by
  have hget : (table regs)[i]? = some (some regs[i].opt) := by
    rw [table,List.getElem?_map,List.getElem?_eq_getElem hi]
    rfl
  rw [entryName,hget]
  rfl

def invoke (func : ℕ) (g : Getopt) : Opt Unit :=
  if func ≠ 0 then (Opt.request (.func func g.optarg)).bind fun _ => .ret () else .ret ()

theorem dispatchTurn_eq {g : Getopt} {name name' : Text} (hx : x ∈ s.reg.live)
    (hi : g.idx < regs.length)
    (hname : regs[g.idx].opt.name = some name) (hname' : (s.nodes x).opt.name = some name') :
    s.dispatchTurn (table regs) g x =
      if strncmp sizeofName name name' = .eq then (invoke (s.nodes x).func g).bind fun _ =>
        .ret (.inr ())
      else .ret (.inl (s.nodes x).next) := by
  rw [dispatchTurn,if_neg (Registry.live_ne_zero hx),entryName_eq hi,load_eq hx,Program.bind_eq,
    Program.ret_bind,
    Program.bind_eq,Program.ret_bind,hname,hname',invoke]
  dsimp only
  split
  · split <;> rfl
  · rfl

/-- The first option with a name that `strncmp` does not tell from `name`. -/
def found (regs : List Registration) (name : Option Text) : Option Registration :=
  regs.find? fun r => r.opt.name.map (List.take sizeofName) = name.map (List.take sizeofName)

def invokeFound (r : Option Registration) (g : Getopt) : Opt Unit :=
  match r with
  | some r => invoke r.func g
  | none => .ret ()

theorem strncmp_eq_iff (k : ℕ) (b c : Text) : strncmp k b c = .eq ↔ b.take k = c.take k := by
  induction k generalizing b c with
  | zero => simp [strncmp]
  | succ k ih =>
    cases b with
    | nil => cases c <;> simp [strncmp]
    | cons x b =>
      cases c with
      | nil => simp [strncmp]
      | cons y c =>
        rw [strncmp]
        by_cases hxy : x = y
        · simp [hxy,ih]
        · rw [if_neg hxy]
          split <;> simp [hxy]

theorem dispatchTurn_found {g : Getopt} (rest : List Registration) (hx : x ∈ s.reg.live)
    (hi : g.idx < regs.length)
    (hname : regs[g.idx].opt.name ≠ none) (hnode : (s.nodes x).opt.name ≠ none) :
    s.dispatchTurn (table regs) g x =
        (invokeFound (found ((s.nodes x).registration :: rest) regs[g.idx].opt.name) g).bind
        (fun _ => .ret (.inr ())) ∨
      s.dispatchTurn (table regs) g x = .ret (.inl (s.nodes x).next) ∧
        found ((s.nodes x).registration :: rest) regs[g.idx].opt.name =
          found rest regs[g.idx].opt.name := by
  obtain ⟨name,hname⟩ := Option.ne_none_iff_exists'.mp hname
  obtain ⟨name',hnode⟩ := Option.ne_none_iff_exists'.mp hnode
  have hreg : (s.nodes x).registration.opt.name = some name' := hnode
  have hcmp := strncmp_eq_iff sizeofName name name'
  rw [dispatchTurn_eq hx hi hname hnode]
  by_cases hsame : name.take sizeofName = name'.take sizeofName
  · apply Or.inl
    have hfound : found ((s.nodes x).registration :: rest) regs[g.idx].opt.name =
        some (s.nodes x).registration :=
      List.find?_cons_of_pos (by simp [hname,hreg,hsame])
    rw [if_pos (hcmp.mpr hsame),hfound]
    rfl
  · refine Or.inr ⟨if_neg (mt hcmp.mp hsame),List.find?_cons_of_neg ?_⟩
    simpa [hname,hreg] using fun he => hsame he.symm

theorem ends_dispatch {P : Program.Protocol (SysCall ⊕ OptCall) OptAnswer A} {b : A}
    {post : A → Unit → Prop}
    {g : Getopt} (hlinked : Linked s.nodes p xs) (hlive : ∀ x ∈ xs, x ∈ s.reg.live)
    (hnames : ∀ r ∈ s.registrations xs, r.opt.name ≠ none) (hi : g.idx < regs.length)
    (hname : regs[g.idx].opt.name ≠ none)
    (h : Program.Ends P (invokeFound (found (s.registrations xs) regs[g.idx].opt.name) g) b post) :
    Program.Ends P (Program.iterate (s.dispatchTurn (table regs) g) p) b post := by
  induction xs generalizing p with
  | nil =>
    have hp : p = 0 := hlinked
    have hdone : Program.Yields (Program.iterate (s.dispatchTurn (table regs) g) p) [] () :=
      .silent_done (if_pos hp)
    apply hdone.silent_ends.mono
    rintro _ _ ⟨rfl,rfl⟩
    exact h.of_ret
  | cons x xs ih =>
    obtain ⟨rfl,hrest⟩ := hlinked
    apply Program.Ends.iterate
    rcases dispatchTurn_found (s.registrations xs) (hlive p List.mem_cons_self) hi hname
      (hnames _ List.mem_cons_self) with hturn | ⟨hturn,hfound⟩
    · rw [hturn]
      exact Program.Ends.bind (h.mono fun _ _ hpost => .ret (.ret hpost))
    · have hsplit : s.registrations (p :: xs) = (s.nodes p).registration :: s.registrations xs := rfl
      rw [hsplit,hfound] at h
      rw [hturn]
      exact .ret (ih hrest (fun y hy => hlive y (List.mem_cons_of_mem _ hy))
        (fun r hr => hnames r (List.mem_cons_of_mem _ hr)) h)

theorem invokeFound_ends (r : Option Registration) (g : Getopt) :
    Program.Ends environment (invokeFound r g) (a,gs) fun s' _ => s' = (a,gs) := by
  cases r with
  | none => exact .ret rfl
  | some r =>
    rw [invokeFound,invoke]
    split
    · exact Program.Ends.bind (Program.Ends.perform trivial fun _ _ => .ret rfl)
    · exact .ret rfl

theorem ends_getoptTurn {P : Program.Protocol (SysCall ⊕ OptCall) OptAnswer A} {b : A}
    {post : A → Unit ⊕ Unit → Prop}
    (h : s.Holds xs) (hregs : s.registrations xs = regs) (hnames : ∀ r ∈ regs, r.opt.name ≠ none)
    (hallows : P.allows b (.inr (.getoptLong argv (table regs))))
    (hlast : ∀ g : Getopt, P.answers b (.inr (.getoptLong argv (table regs))) g → g.ret = -1 →
      post (P.next b (.inr (.getoptLong argv (table regs))) g) (.inr ()))
    (hskip : ∀ g : Getopt, P.answers b (.inr (.getoptLong argv (table regs))) g → g.ret ≠ -1 →
      g.ret ≠ 0 →
      post (P.next b (.inr (.getoptLong argv (table regs))) g) (.inl ()))
    (hfound : ∀ g : Getopt, P.answers b (.inr (.getoptLong argv (table regs))) g → g.ret = 0 →
      ∃ hi : g.idx < regs.length, Program.Ends P (invokeFound (found regs regs[g.idx].opt.name) g)
        (P.next b (.inr (.getoptLong argv (table regs))) g) fun b' _ => post b' (.inl ())) :
    Program.Ends P (s.getoptTurn argv (table regs)) b post := by
  subst hregs
  refine Program.Ends.bind (Program.Ends.perform hallows fun g hg => ?_)
  by_cases hret : g.ret = -1
  · rw [if_pos hret]
    exact .ret (hlast g hg hret)
  rw [if_neg hret]
  by_cases hzero : g.ret = 0
  · obtain ⟨hi,hcall⟩ := hfound g hg hzero
    rw [if_neg (not_not.mpr hzero)]
    have hsearch := ends_dispatch h.linked h.live hnames hi (hnames _ (List.getElem_mem hi)) hcall
    exact Program.Ends.bind (hsearch.mono fun _ _ hpost => .ret hpost)
  · rw [if_pos hzero]
    exact .ret (hskip g hg hret hzero)

def getopts (s : OptList) (argv : List Text) (regs : List Registration) : Opt Unit :=
  Program.iterate (fun _ => s.getoptTurn argv (table regs)) ()

theorem getopts_ends (h : s.Holds xs) (hnames : ∀ r ∈ s.registrations xs, r.opt.name ≠ none)
    (argv : List Text)
    (hgs : InTable (s.registrations xs) gs) :
    Program.Ends environment (getopts s argv (s.registrations xs)) (a,gs) fun s' _ => s'.1 = a := by
  induction gs with
  | nil =>
    refine Program.Ends.iterate (ends_getoptTurn h rfl hnames trivial (fun _ _ _ => .ret rfl) ?_ ?_)
    · exact fun g hg hret _ => absurd hg hret
    · exact fun g hg hzero => absurd (hg.symm.trans hzero) (by decide)
  | cons g gs ih =>
    obtain ⟨⟨hret,hi⟩,hrest⟩ := List.forall_mem_cons.mp hgs
    refine Program.Ends.iterate (ends_getoptTurn h rfl hnames trivial ?_ ?_ ?_)
    · rintro _ rfl hend
      exact absurd hend hret
    · rintro _ rfl _ _
      exact ih hrest
    · rintro _ rfl hzero
      refine ⟨hi hzero,(invokeFound_ends _ _).mono ?_⟩
      rintro _ _ rfl
      exact ih hrest

theorem ends_optRun (h : Keeps s a regs) (argv : List Text) (hgs : InTable regs gs) :
    Program.Ends environment (s.optRun argv) (a,gs) fun s' r => Keeps r.2 s'.1 regs := by
  obtain ⟨inv,⟨xs,hxs,rfl⟩,hnames⟩ := h
  rw [optRun]
  by_cases hhead : s.head = 0
  · rw [if_pos hhead]
    exact .ret ⟨inv,⟨xs,hxs,rfl⟩,hnames⟩
  rw [if_neg hhead]
  have hpos : xs.length ≠ 0 :=
    fun hlen => hhead (hxs.head_eq_zero.mpr (List.length_eq_zero_iff.mp hlen))
  refine Program.Ends.bind ((optLen_yields hxs).silent_ends.mono ?_)
  rintro _ _ ⟨rfl,rfl⟩
  refine Program.Ends.bind ((ends_omalloc (Nat.mul_ne_zero (by decide) hpos)).mono ?_)
  rintro _ ⟨optLs,reg⟩ (⟨hret,rfl⟩ | ⟨hptr,hfresh,rfl,hperm⟩)
  · obtain ⟨rfl,rfl⟩ := Prod.mk.inj hret
    exact .ret ⟨inv,⟨xs,hxs,rfl⟩,hnames⟩
  rw [if_neg hptr]
  have hgrown : Holds { s with reg := reg } xs :=
    hxs.withReg fun x hx => hperm.mem_iff.mpr (List.mem_cons_of_mem _ (hxs.live x hx))
  refine Program.Ends.bind ((copyOptions_yields hgrown).silent_ends.mono ?_)
  rintro _ _ ⟨rfl,rfl⟩
  refine Program.Ends.bind ((getopts_ends hgrown hnames argv hgs).mono ?_)
  rintro ⟨heap,gs'⟩ _ rfl
  have hmem : optLs ∈ reg.live := hperm.mem_iff.mpr List.mem_cons_self
  refine Program.Ends.bind ((ends_ofree (inv.grow hfresh hperm) hmem).mono ?_)
  rintro _ ⟨ret,rest⟩ ⟨rfl,hback⟩
  have hsame : rest.live.Perm s.reg.live := (hback.symm.trans hperm).cons_inv
  have hshrunk := (inv.grow hfresh hperm).shrink hback
  exact .ret ⟨hshrunk,⟨xs,hxs.withReg fun x hx => hsame.mem_iff.mpr (hxs.live x hx),rfl⟩,hnames⟩

theorem free_ends (inv : s.reg.Inv a) (hlinked : Linked s.nodes p xs) (hnodup : xs.Nodup)
    (hlive : ∀ x ∈ xs, x ∈ s.reg.live) :
    Program.Ends environment (Program.iterate (fun (node,s) => freeTurn node s) (p,s))
      (a,gs) fun _ r =>
      r.head = s.head ∧ r.reg.live.Subset s.reg.live ∧ ∀ x ∈ xs, x ∉ r.reg.live := by
  induction xs generalizing p s a with
  | nil =>
    have hp : p = 0 := hlinked
    have hdone : Program.Yields (Program.iterate (fun (node,s) => freeTurn node s) (p,s)) [] s :=
      .silent_done (if_pos hp)
    apply hdone.silent_ends.mono
    rintro _ _ ⟨rfl,rfl⟩
    exact ⟨rfl,fun _ hx => hx,fun _ hx => absurd hx List.not_mem_nil⟩
  | cons x xs ih =>
    obtain ⟨rfl,hrest⟩ := hlinked
    obtain ⟨hnot,hnd⟩ := List.nodup_cons.mp hnodup
    have hx := hlive p List.mem_cons_self
    apply Program.Ends.iterate
    dsimp only
    rw [freeTurn,if_neg (Registry.live_ne_zero hx),load_eq hx,Program.bind_eq,Program.ret_bind]
    refine Program.Ends.bind ((ends_ofree inv hx).mono ?_)
    rintro _ ⟨ret,rest⟩ ⟨rfl,hperm⟩
    have hgone : p ∉ rest.live := (List.nodup_cons.mp (hperm.nodup_iff.mp inv.nodup)).1
    have hlive' : ∀ y ∈ xs, y ∈ rest.live := by
      intro y hy
      have hne : y ≠ p := fun he => hnot (he ▸ hy)
      exact (List.mem_cons.mp (hperm.mem_iff.mp (hlive y (List.mem_cons_of_mem _ hy)))).resolve_left
        hne
    have hsub : rest.live.Subset s.reg.live :=
      fun y hy => hperm.mem_iff.mpr (List.mem_cons_of_mem _ hy)
    have hrec := ih (s := { s with reg := rest }) (inv.shrink hperm) hrest hnd hlive'
    refine .ret (hrec.mono ?_)
    rintro _ r ⟨hhead,hsub',hdead⟩
    refine ⟨hhead,fun y hy => hsub (hsub' hy),fun y hy => ?_⟩
    rcases List.mem_cons.mp hy with rfl | hy
    · exact fun hmem => hgone (hsub' hmem)
    · exact hdead y hy

theorem ends_optFree (h : Keeps s a regs) :
    Program.Ends environment s.optFree (a,gs) fun s' r =>
      if regs = [] then Keeps r.2 s'.1 [] else r.2.head ≠ 0 ∧ r.2.head ∉ r.2.reg.live := by
  obtain ⟨inv,⟨xs,hxs,rfl⟩,hnames⟩ := h
  rw [optFree]
  by_cases hhead : s.head = 0
  · obtain rfl := hxs.head_eq_zero.mp hhead
    have hnil : s.registrations [] = [] := rfl
    rw [if_pos hhead,hnil]
    refine .ret ?_
    rw [if_pos rfl]
    exact ⟨inv,⟨[],hxs,rfl⟩,hnames⟩
  · have hne : s.registrations xs ≠ [] := by
      rw [registrations,ne_eq,List.map_eq_nil_iff]
      exact mt hxs.head_eq_zero.mpr hhead
    rw [if_neg hhead]
    refine Program.Ends.bind ((free_ends inv hxs.linked hxs.nodup hxs.live).mono ?_)
    rintro _ r ⟨hr,_,hdead⟩
    refine .ret ?_
    rw [if_neg hne]
    refine ⟨hr ▸ hhead,hdead r.head ?_⟩
    cases xs with
    | nil => exact absurd rfl hne
    | cons x xs => exact (hr.trans hxs.linked.1) ▸ List.mem_cons_self

theorem Op.call_ends (op : Op) (h : Keeps s a regs) (hgs : InTable regs gs) :
    Program.Ends environment (op.call s) (a,gs) fun s' r =>
      (op = .free → regs = []) → Keeps r.2 s'.1 (op.after r.1 regs) := by
  cases op with
  | reg opt func desc => exact (ends_optReg h opt func desc).mono fun _ _ hr _ => hr
  | usage filename =>
    refine Program.Ends.bind ((ends_optUsage h.lists filename).mono ?_)
    rintro _ _ rfl
    exact .ret fun _ => h
  | run argv => exact (ends_optRun h argv hgs).mono fun _ _ hr _ => hr
  | free =>
    refine (ends_optFree h).mono fun _ r hr hregs => ?_
    rwa [if_pos (hregs rfl)] at hr

theorem Run.keeps {ok : List Registration → Op → Prop} (hok : ∀ regs, ok regs .free → regs = [])
    (inv : start.reg.Inv a) (hhead : start.head = 0) {heap : List ℕ} (h : Run ok start a regs heap s) :
    Keeps s heap regs := by
  induction h with
  | nil =>
    exact ⟨inv,⟨[],⟨hhead,List.nodup_nil,fun _ hx => absurd hx List.not_mem_nil⟩,rfl⟩,fun _ hr =>
      absurd hr List.not_mem_nil⟩
  | snoc op _ hop hgs hcall hanswers ih =>
    have hcond := (op.call_ends ih hgs).follows.yields hcall hanswers
    exact hcond fun he => hok _ (he ▸ hop)

/-- As long as every `opt_free` finds nothing registered, the options are what has been registered,
in this order and with names, and each call ends without an access to a released node; after an
`opt_free` that releases nodes they are not. -/
theorem run_lists (inv : start.reg.Inv a) (hhead : start.head = 0) {heap : List ℕ}
    (h : Run (fun regs op => op = .free → regs = []) start a regs heap s) :
    s.Lists regs ∧
      (∀ (op : Op) (gs : List Getopt), InTable regs gs →
        Program.Ends environment (op.call s) (heap,gs) fun _ _ => True) ∧
      (regs ≠ [] → ∀ gs, Program.Ends environment s.optFree (heap,gs) fun _ r => ¬ r.2.Lists []) := by
  have hkeeps := h.keeps (fun _ hfree => hfree rfl) inv hhead
  refine ⟨hkeeps.lists,fun op gs hgs => (op.call_ends hkeeps hgs).mono fun _ _ _ => trivial,
    fun hregs gs => ?_⟩
  refine (ends_optFree hkeeps).mono fun _ r hr => ?_
  rw [if_neg hregs] at hr
  rintro ⟨⟨xs,hxs,hnil⟩,_⟩
  obtain rfl : xs = [] := List.map_eq_nil_iff.mp hnil
  exact hr.1 hxs.linked

/-- Where `head` points to a node that has been released, `opt_usage` reads it. -/
theorem usage_stale (hhead : s.head ≠ 0) (hdead : s.head ∉ s.reg.live)
    {post : List ℕ × List Getopt → ℤ → Prop} :
    ¬ Program.Ends environment (s.optUsage none) (a,gs) post := by
  intro hends
  have hcall : s.optUsage none = (Opt.request (.printRaw "[ operation ]\n".toList)).bind fun _ =>
      (Program.iterate s.usageTurn s.head).bind fun _ =>
      (Opt.request (.printRaw ['\n'])).bind fun _ => .ret 0 :=
    if_neg hhead
  obtain ⟨shown,hturn⟩ : ∃ shown, s.usageTurn s.head = (Opt.request (.stale s.head)).bind shown := by
    rw [usageTurn,if_neg hhead,load,if_neg hhead,if_neg hdead]
    exact ⟨_,rfl⟩
  rw [hcall] at hends
  have hloop : Program.Ends environment ((Program.iterate s.usageTurn s.head).bind _) _ post :=
    (Program.ends_call.mp hends).2 () trivial
  have hfollows := hloop.follows_bind.unfold
  rw [Program.unfold,hturn] at hfollows
  exact hfollows.1

theorem inTable_nil (regs : List Registration) : InTable regs [] :=
  fun _ hg => absurd hg List.not_mem_nil

def sampleStart : OptList := ⟨0,fun _ => ⟨⟨none,0,0,0⟩,none,0,0⟩,Registry.empty⟩

def sampleOption (name : Text) (func : ℕ) : Registration := ⟨⟨some name,1,0,0⟩,func,none⟩

def sampleListed (name : Text) (func : ℕ) : OptList :=
  ⟨100,Function.update sampleStart.nodes 100 ⟨⟨some name,1,0,0⟩,none,func,0⟩,Registry.empty.put 0
    ⟨100,56⟩⟩

theorem sample_one (ok : List Registration → Op → Prop) (name : Text) (func : ℕ)
    (hok : ok [] (.reg ⟨some name,1,0,0⟩ func none)) :
    Run ok sampleStart [] [sampleOption name func] [100] (sampleListed name func) := by
  have hcall : Program.Yields (Op.call sampleStart (.reg ⟨some name,1,0,0⟩ func none))
      [⟨.inl (.malloc 56),(100 : ℕ)⟩] (0,sampleListed name func) := Program.replay_yields (n := 9) rfl
  have hanswers : environment.Accepts ([],[]) [⟨.inl (.malloc 56),(100 : ℕ)⟩] :=
    ⟨Or.inr ⟨by decide,by decide⟩,trivial⟩
  exact Run.snoc _ .nil hok (inTable_nil []) hcall hanswers

theorem sample_two (ok : List Registration → Op → Prop) (name name' : Text) (func func' : ℕ)
    (hok : ok [] (.reg ⟨some name,1,0,0⟩ func none))
    (hok' : ok [sampleOption name func] (.reg ⟨some name',1,0,0⟩ func' none)) :
    ∃ s, s.reg.live.length < memoryAllocateMaxTimes ∧
      Run ok sampleStart [] [sampleOption name func,sampleOption name' func'] [200,100] s := by
  have hcall : Program.Yields (Op.call (sampleListed name func) (.reg ⟨some name',1,0,0⟩ func' none))
      [⟨.inl (.malloc 56),(200 : ℕ)⟩] (0,_) := Program.replay_yields (n := 9) rfl
  have hanswers : environment.Accepts ([100],[]) [⟨.inl (.malloc 56),(200 : ℕ)⟩] :=
    ⟨Or.inr ⟨by decide,by decide⟩,trivial⟩
  have hroom : ((Registry.empty.put 0 ⟨100,56⟩).put 1 ⟨200,56⟩).live.length <
    memoryAllocateMaxTimes := by decide +kernel
  exact ⟨_,hroom,(sample_one ok name func hok).snoc _ hok' (inTable_nil _) hcall hanswers⟩

theorem run_lists_sample : ∃ s, Run (fun regs op => op = .free → regs = []) sampleStart []
    [sampleOption ['a'] 7,sampleOption ['b'] 8] [200,100] s ∧
      s.Lists [sampleOption ['a'] 7,sampleOption ['b'] 8] := by
  obtain ⟨s,-,hrun⟩ := sample_two (fun regs op => op = .free → regs = []) ['a'] ['b'] 7 8
    (fun he => absurd he (by decide)) fun he => absurd he (by decide)
  exact ⟨s,hrun,(run_lists (Registry.Inv.empty []) rfl hrun).1⟩

theorem freed_not_listed : ∃ heap s, Run (fun _ _ => True) sampleStart [] [] heap s ∧ ¬ s.Lists [] ∧
    ¬ Program.Ends environment (s.optUsage none) (heap,[]) fun _ _ => True := by
  have hcall : Program.Yields (Op.call (sampleListed ['a'] 7) .free) [⟨.inl (.free 100),()⟩] (0,_) :=
    Program.replay_yields (n := 9) rfl
  have hanswers : environment.Accepts ([100],[]) [⟨.inl (.free 100),()⟩] := ⟨trivial,trivial⟩
  refine ⟨_,_,(sample_one (fun _ _ => True) ['a'] 7 trivial).snoc _ trivial (inTable_nil _)
    hcall hanswers,?_,
    usage_stale (by decide) (by decide +kernel)⟩
  rintro ⟨⟨xs,hxs,hnil⟩,_⟩
  obtain rfl : xs = [] := List.map_eq_nil_iff.mp hnil
  exact absurd (show (100 : ℕ) = 0 from hxs.linked) (by decide)

end OptList
end LixRtos
