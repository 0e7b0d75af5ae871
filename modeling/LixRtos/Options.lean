import LixRtos.Registry

/-! The command-line options of `linux/src/opt.c`. The registered functions do not call back, and
an access to a node that is not registered with the allocator, or to an entry outside of a block,
is a call of its own. -/
namespace LixRtos

/-- A text without the zero at its end; a pointer to it is `none` for `NULL`. -/
abbrev Text := List Char

structure LongOption where
  name : Option Text
  hasArg : ℤ
  flag : ℕ
  val : ℤ
  deriving DecidableEq

/-- `simple_list`; functions are numbers and 0 is `NULL`. -/
structure SimpleList where
  opt : LongOption
  desc : Option Text
  func : ℕ
  next : ℕ
  deriving DecidableEq

/-- What `getopt_long` returns, and `opt_idx` and `optarg` after the call. -/
structure Getopt where
  ret : ℤ
  idx : ℕ
  optarg : Option Text
  deriving DecidableEq

/-- The entries of a block; `none` has not been written. -/
abbrev OptionBlock := List (Option LongOption)

inductive OptCall
  | getoptLong (argv : List Text) (table : OptionBlock)
  /-- The call of a registered function. -/
  | func (func : ℕ) (optarg : Option Text)
  | printRaw (text : Text)
  /-- An access to a node that has been released. -/
  | stale (p : ℕ)
  /-- An access to an entry that has not been written or lies outside of the block. -/
  | beyond (idx : ℕ)
  deriving DecidableEq

abbrev OptCall.Answer : OptCall → Type
  | .getoptLong _ _ => Getopt
  | .func _ _ => ℤ
  | .printRaw _ => Unit
  | .stale _ => SimpleList
  | .beyond _ => Option Text

abbrev OptAnswer : SysCall ⊕ OptCall → Type
  | .inl c => c.Answer
  | .inr c => c.Answer

abbrev Opt := Program (SysCall ⊕ OptCall) OptAnswer

namespace Opt

def lib {α : Type} : Sys α → Opt α
  | .ret a => .ret a
  | .call c next => Program.call (.inl c) fun r : c.Answer => lib (next r)
  | .loop body s next => .loop (fun s => lib (body s)) s fun b => lib (next b)

def request (c : OptCall) : Opt c.Answer := Program.perform (C := SysCall ⊕ OptCall)
    (R := OptAnswer) (.inr c)

def fault {α : Type} : Opt α := lib Sys.fault

end Opt

def strncmp : ℕ → Text → Text → Ordering
  | 0, _, _ => .eq
  | _+1, [], [] => .eq
  | _+1, [], _ :: _ => .lt
  | _+1, _ :: _, [] => .gt
  | n+1, c :: a, d :: b => if c = d then strncmp n a b else if c < d then .lt else .gt

/-- The memory of `opt.c`: its variable `head`, the nodes and the allocator. -/
structure OptList where
  head : ℕ
  nodes : ℕ → SimpleList
  reg : Registry

namespace OptList

def sizeofSimpleList : ℕ := 56

/-- `sizeof(struct option)` -/
def sizeofOption : ℕ := 32

/-- `sizeof(node->opt.name)`, the size of a pointer. -/
def sizeofName : ℕ := 8

def load (s : OptList) (p : ℕ) : Opt SimpleList :=
  if p = 0 then Opt.fault
  else if p ∈ s.reg.live then pure (s.nodes p)
  else Opt.request (.stale p)

def setNext (s : OptList) (p v : ℕ) : Opt OptList :=
  if p = 0 then Opt.fault
  else if p ∈ s.reg.live then
    pure { s with nodes := Function.update s.nodes p { s.nodes p with next := v } }
  else do
    let _ ← Opt.request (.stale p)
    pure s

def countTurn (s : OptList) (list count : ℕ) : Opt (ℕ × ℕ ⊕ ℕ) :=
  if list = 0 then pure (.inr count)
  else do
    let node ← s.load list
    pure (.inl (node.next,count+1))

def optLen (s : OptList) : Opt ℕ :=
  if s.head = 0 then pure 0
  else Program.iterate (fun (list,count) => s.countTurn list count) (s.head,0)

/-- `while(last->next) { last = last->next; }` -/
def lastTurn (s : OptList) (last : ℕ) : Opt (ℕ ⊕ ℕ) := do
  let node ← s.load last
  if node.next ≠ 0 then pure (.inl node.next) else pure (.inr last)

def optReg (s : OptList) (opt : LongOption) (func : ℕ) (desc : Option Text) : Opt (ℤ × OptList) :=
  if opt.name = none then pure (-1,s)
  else do
    let r ← Opt.lib (omalloc s.reg sizeofSimpleList)
    let node := r.1
    let s := { s with reg := r.2 }
    if node = 0 then pure (-1,s)
    else do
      let s := { s with nodes := Function.update s.nodes node ⟨opt,desc,func,0⟩ }
      if s.head = 0 then pure (0,{ s with head := node })
      else do
        let last ← Program.iterate s.lastTurn s.head
        let s ← s.setNext last node
        pure (0,s)

def usageLine (name : Text) (desc : Option Text) : Opt Unit := do
  Opt.request (.printRaw (" --".toList ++ name ++ "\t : ".toList))
  match desc with
  | some desc => Opt.request (.printRaw desc)
  | none => pure ()
  Opt.request (.printRaw ['\n'])

/-- The loop does not go on to the next node where a name is `NULL`. -/
def usageTurn (s : OptList) (node : ℕ) : Opt (ℕ ⊕ Unit) :=
  if node = 0 then pure (.inr ())
  else do
    let n ← s.load node
    match n.opt.name with
    | none => pure (.inl node)
    | some name => do
      usageLine name n.desc
      pure (.inl n.next)

def optUsage (s : OptList) (filename : Option Text) : Opt ℤ := do
  match filename with
  | some filename =>
    Opt.request (.printRaw ("\nUsage : ".toList ++ filename ++ " [operation] <args>\n".toList))
  | none => pure ()
  if s.head = 0 then pure 0
  else do
    Opt.request (.printRaw "[ operation ]\n".toList)
    Program.iterate s.usageTurn s.head
    Opt.request (.printRaw ['\n'])
    pure 0

def freeTurn (node : ℕ) (s : OptList) : Opt (ℕ × OptList ⊕ OptList) :=
  if node = 0 then pure (.inr s)
  else do
    let n ← s.load node
    let r ← Opt.lib (ofree s.reg node)
    pure (.inl (n.next,{ s with reg := r.2 }))

/-- `head` keeps its value. -/
def optFree (s : OptList) : Opt (ℤ × OptList) :=
  if s.head = 0 then pure (0,s)
  else do
    let s ← Program.iterate (fun (node,s) => freeTurn node s) (s.head,s)
    pure (0,s)

/-- `memcpy(dest++, &copy->opt, sizeof(struct option))` -/
def copyTurn (s : OptList) (copy dest : ℕ) (table : OptionBlock) :
    Opt (ℕ × ℕ × OptionBlock ⊕ OptionBlock) :=
  if copy = 0 then pure (.inr table)
  else do
    let node ← s.load copy
    if dest < table.length then pure (.inl (node.next,dest+1,table.set dest (some node.opt)))
    else do
      let _ ← Opt.request (.beyond dest)
      pure (.inl (node.next,dest+1,table))

/-- The block of `len` entries with the options of the nodes. -/
def copyOptions (s : OptList) (len : ℕ) : Opt OptionBlock :=
  Program.iterate (fun (copy,dest,table) => s.copyTurn copy dest table)
    (s.head,0,List.replicate len none)

/-- `opt_ls[opt_idx].name` -/
def entryName (table : OptionBlock) (idx : ℕ) : Opt (Option Text) :=
  match table[idx]? with
  | some (some opt) => pure opt.name
  | _ => Opt.request (.beyond idx)

def dispatchTurn (s : OptList) (table : OptionBlock) (g : Getopt) (node : ℕ) : Opt (ℕ ⊕ Unit) :=
  if node = 0 then pure (.inr ())
  else do
    let name ← entryName table g.idx
    let n ← s.load node
    match name, n.opt.name with
    | some name, some name' =>
      if strncmp sizeofName name name' = .eq then do
        if n.func ≠ 0 then
          let _ ← Opt.request (.func n.func g.optarg)
        pure (.inr ())
      else pure (.inl n.next)
    | _, _ => Opt.fault

/-- `while ((opt = getopt_long(argc, argv, "", opt_ls, &opt_idx)) != -1)` -/
def getoptTurn (s : OptList) (argv : List Text) (table : OptionBlock) : Opt (Unit ⊕ Unit) := do
  let g ← Opt.request (.getoptLong argv table)
  if g.ret = -1 then pure (.inr ())
  else if g.ret ≠ 0 then pure (.inl ())
  else do
    Program.iterate (s.dispatchTurn table g) s.head
    pure (.inl ())

def optRun (s : OptList) (argv : List Text) : Opt (ℤ × OptList) :=
  if s.head = 0 then pure (0,s)
  else do
    let len ← s.optLen
    let r ← Opt.lib (omalloc s.reg (sizeofOption*len))
    let optLs := r.1
    let s := { s with reg := r.2 }
    if optLs = 0 then pure (-1,s)
    else do
      let table ← s.copyOptions len
      Program.iterate (fun _ => s.getoptTurn argv table) ()
      let r ← Opt.lib (ofree s.reg optLs)
      pure (0,{ s with reg := r.2 })

end OptList
end LixRtos
