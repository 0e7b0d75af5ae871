import LixRtos.TimerText
import LixRtos.Options
import Mathlib.Data.List.Infix

/-! `run_cmd` of `linux/src/misc.c`, which hands the lines with a key in them to a function. Lines
are read into 512 bytes. -/
namespace LixRtos

inductive CmdCall
  /-- `popen(cmd, "r")`; the answer tells whether there is a stream. -/
  | popen (cmd : Text)
  | fgets (size : ℕ)
  | callback (func : ℕ) (line : Text)
  | pclose
  deriving DecidableEq

abbrev CmdCall.Answer : CmdCall → Type
  | .popen _ => Bool
  | .fgets _ => Option Text
  | .callback _ _ => Unit
  | .pclose => ℤ

abbrev Cmd := Program CmdCall CmdCall.Answer

def Cmd.request (c : CmdCall) : Cmd c.Answer := Program.perform c

/-- `sizeof(line)` -/
def sizeofLine : ℕ := 512

/-- One turn of the loop; `strstr` looks for `key` as a connected piece. -/
def filterTurn (key : Text) (func : ℕ) : Cmd (Unit ⊕ Unit) := do
  let line ← Cmd.request (.fgets sizeofLine)
  match line with
  | none => pure (.inr ())
  | some line =>
    if ¬ key <:+: cString line then pure (.inl ())
    else do
      let _ ← Cmd.request (.callback func (cString line))
      pure (.inl ())

/-- `run_cmd`; `text` is what the format and the arguments give. -/
def runCmd (key : Option Text) (func : ℕ) (text : Option Text) : Cmd ℤ :=
  match key, text with
  | some key, some text =>
    if func = 0 then pure (-1)
    else do
      let cmd := text.take 255
      let fd ← Cmd.request (.popen cmd)
      if fd = false then pure (-1)
      else do
        let _ ← Program.iterate (fun _ => filterTurn key func) ()
        let res ← Cmd.request .pclose
        if res ≠ 0 then pure (-1) else pure 0
  | _, _ => pure (-1)

def firstLine : Text → Text
  | [] => []
  | c :: s => if c = '\n' then [c] else c :: firstLine s

def lines : Text → List Text
  | [] => []
  | c :: s => if c = '\n' then [c] :: lines s
    else match lines s with
      | [] => [[c]]
      | l :: ls => (c :: l) :: ls

variable {s l key : Text} {k : ℕ}

theorem firstLine_begins (s : Text) : firstLine s <+: s := by
  induction s with
  | nil => exact List.prefix_refl _
  | cons c s ih =>
    rw [firstLine]
    split
    · exact List.prefix_append [c] s
    · exact (List.prefix_cons_inj c).mpr ih

theorem firstLine_pos (hs : s ≠ []) : 0 < (firstLine s).length := by
  cases s with
  | nil => exact absurd rfl hs
  | cons c s =>
    rw [firstLine]
    split <;> simp

theorem lines_eq (hs : s ≠ []) : lines s = firstLine s :: lines (s.drop (firstLine s).length) := by
  induction s with
  | nil => exact absurd rfl hs
  | cons c s ih =>
    rw [lines,firstLine]
    split
    · rfl
    · by_cases hnil : s = []
      · subst hnil
        rfl
      · rw [ih hnil]
        rfl

theorem firstLine_drop (hk : k < (firstLine s).length) : firstLine (s.drop k) =
    (firstLine s).drop k := by
  induction k generalizing s with
  | zero => rfl
  | succ k ih =>
    cases s with
    | nil => simp [firstLine] at hk
    | cons c s =>
      rw [firstLine] at hk ⊢
      split at hk
      · simp at hk
      next hc =>
      rw [if_neg hc,List.drop_succ_cons,List.drop_succ_cons]
      exact ih (by simpa using hk)

def pieces (l : Text) : List Text :=
  if l.length ≤ sizeofLine-1 then [l] else l.take (sizeofLine-1) :: pieces (l.drop (sizeofLine-1))
termination_by l.length
decreasing_by
  rw [List.length_drop]
  simp only [sizeofLine] at *
  omega

theorem mem_pieces {piece : Text} (h : piece ∈ pieces l) :
    piece.length ≤ sizeofLine-1 ∧ piece <:+: l := by
  induction hn : l.length using Nat.strong_induction_on generalizing l with
  | _ n ih =>
    rw [pieces] at h
    split at h
    next hshort =>
      obtain rfl := List.mem_singleton.mp h
      exact ⟨hshort,List.infix_refl _⟩
    next hlong =>
      rcases List.mem_cons.mp h with rfl | h
      · exact ⟨by rw [List.length_take]; omega,(List.take_prefix _ _).isInfix⟩
      · have hless : (l.drop (sizeofLine-1)).length < n := by
          rw [List.length_drop]
          simp only [sizeofLine] at *
          omega
        obtain ⟨hle,hwithin⟩ := ih _ hless h rfl
        exact ⟨hle,hwithin.trans (List.drop_suffix _ _).isInfix⟩

/-- A line that is read in several pieces is never handed over complete. -/
theorem filter_pieces_iff {p : Text → Prop} [DecidablePred p] (hp : ∀ a b : Text, a <:+: b → p a → p b)
    (ls : List Text) :
    (ls.flatMap pieces).filter p = ls.filter p ↔ ∀ l ∈ ls, p l → l.length ≤ sizeofLine-1 := by
  constructor
  · intro h l hl hpl
    have hmem : l ∈ (ls.flatMap pieces).filter p := by
      rw [h]
      exact List.mem_filter.mpr ⟨hl,by simpa using hpl⟩
    obtain ⟨l',-,hpiece⟩ := List.mem_flatMap.mp (List.mem_filter.mp hmem).1
    exact (mem_pieces hpiece).1
  · intro h
    induction ls with
    | nil => rfl
    | cons l ls ih =>
      have hrest := ih fun l' hl' => h l' (List.mem_cons_of_mem _ hl')
      have hfirst : (pieces l).filter p = [l].filter p := by
        by_cases hshort : l.length ≤ sizeofLine-1
        · rw [pieces,if_pos hshort]
        · have hnot : ¬ p l := fun hpl => hshort (h l List.mem_cons_self hpl)
          have hnone : (pieces l).filter p = [] := by
            apply List.filter_eq_nil_iff.mpr
            intro piece hpiece hpp
            exact hnot (hp _ _ (mem_pieces hpiece).2 (by simpa using hpp))
          rw [hnone,List.filter_cons_of_neg (by simpa using hnot),List.filter_nil]
      rw [List.flatMap_cons,List.filter_append,hrest,hfirst,← List.filter_append,List.singleton_append]

def nextPiece (s : Text) : Text := (firstLine s).take (sizeofLine-1)

theorem nextPiece_pos (hs : s ≠ []) : 0 < (nextPiece s).length := by
  have hpos := firstLine_pos hs
  rw [nextPiece,List.length_take]
  simp only [sizeofLine]
  omega

theorem nextPiece_within (s : Text) : nextPiece s <:+: s :=
  (List.take_prefix _ _).isInfix.trans (firstLine_begins s).isInfix

theorem pieces_eq (hs : s ≠ []) : (lines s).flatMap pieces =
    nextPiece s :: (lines (s.drop (nextPiece s).length)).flatMap pieces := by
  rw [lines_eq hs,List.flatMap_cons,pieces]
  split
  next hshort =>
    have hwhole : nextPiece s = firstLine s := List.take_of_length_le hshort
    rw [hwhole,List.singleton_append]
  next hlong =>
    have hlength : (nextPiece s).length = sizeofLine-1 := by
      rw [nextPiece,List.length_take]
      omega
    have hbegins := (firstLine_begins s).length_le
    have hrest : s.drop (sizeofLine-1) ≠ [] := by
      apply List.length_pos_iff.mp
      rw [List.length_drop]
      omega
    have hsum : sizeofLine-1 + ((firstLine s).drop (sizeofLine-1)).length = (firstLine s).length := by
      rw [List.length_drop]
      omega
    rw [hlength,lines_eq hrest,firstLine_drop (by omega),List.drop_drop,hsum,List.flatMap_cons,
      List.cons_append]
    rfl

/-- The output of the command that has not been read, and the lines that have been handed over. -/
structure Pipe where
  rest : Text
  handed : List Text

/-- The command has been started, and only `func` is called. -/
def pipe (func : ℕ) : Program.Protocol CmdCall CmdCall.Answer Pipe where
  allows _ c :=
    match c with
    | .callback f _ => f = func
    | _ => True
  answers p c r :=
    match c, r with
    | .popen _, fd => fd = true
    | .fgets size, line => line = if p.rest = [] then none else some ((firstLine p.rest).take (size-1))
    | _, _ => True
  next p c r :=
    match c, r with
    | .fgets _, some line => { p with rest := p.rest.drop line.length }
    | .callback _ line, _ => { p with handed := p.handed ++ [line] }
    | _, _ => p

variable {func : ℕ} {seen : List Text} {post : Pipe → Unit → Prop}

theorem fgets_answers {p : Pipe} : ∀ line, (pipe func).answers p (.fgets sizeofLine) line ↔
    line = if p.rest = [] then none else some (nextPiece p.rest) := fun _ => Iff.rfl

def filterLoop (key : Text) (func : ℕ) : Cmd Unit := Program.iterate (fun _ => filterTurn key func) ()

theorem ends_filterLoop_nil : Program.Ends (pipe func) (filterLoop key func) ⟨[],seen⟩ post ↔
    post ⟨[],seen⟩ () := by
  rw [filterLoop,Program.iterate,Program.ends_loop]
  change Program.Ends (pipe func) (.call (.fgets sizeofLine) _) ⟨[],seen⟩ post ↔ _
  rw [Program.ends_call_of_eq fgets_answers trivial]
  exact ⟨Program.Ends.of_ret,.ret⟩

theorem cString_eq {t : Text} (ht : nul ∉ t) : cString t = t := by
  apply List.takeWhile_eq_self_iff.mpr
  intro c hc
  rw [decide_eq_true_eq]
  rintro rfl
  exact ht hc

theorem ends_filterLoop_cons (hs : s ≠ []) (hnul : nul ∉ s) :
    Program.Ends (pipe func) (filterLoop key func) ⟨s,seen⟩ post ↔
      Program.Ends (pipe func) (filterLoop key func)
        ⟨s.drop (nextPiece s).length,seen ++ [nextPiece s].filter (key <:+: ·)⟩ post := by
  have hpiece : nul ∉ nextPiece s := fun h => hnul ((nextPiece_within s).subset h)
  conv_lhs => rw [filterLoop,Program.iterate,Program.ends_loop]
  change Program.Ends (pipe func) (.call (.fgets sizeofLine) _) ⟨s,seen⟩ post ↔ _
  rw [Program.ends_call_of_eq fgets_answers trivial]
  rw [if_neg hs]
  change Program.Ends (pipe func) (Program.bind (if ¬ key <:+: cString (nextPiece s) then _ else _) _)
    ⟨s.drop (nextPiece s).length,seen⟩ post ↔ _
  rw [cString_eq hpiece]
  by_cases hkey : key <:+: nextPiece s
  · rw [if_neg (not_not.mpr hkey),List.filter_cons_of_pos (by simpa using hkey)]
    change Program.Ends (pipe func)
      (.call (.callback func (nextPiece s)) fun _ => filterLoop key func) _ post ↔ _
    rw [Program.ends_call_of_eq (r := ()) (fun _ => by simp [pipe]) rfl]
    rfl
  · rw [if_pos hkey,List.filter_cons_of_neg (by simpa using hkey),List.filter_nil,List.append_nil]
    rfl

theorem ends_filterLoop (hnul : nul ∉ s) : Program.Ends (pipe func)
    (filterLoop key func) ⟨s,seen⟩ post ↔
    post ⟨[],seen ++ ((lines s).flatMap pieces).filter (key <:+: ·)⟩ () := by
  induction hn : s.length using Nat.strong_induction_on generalizing s seen with
  | _ n ih =>
    by_cases hs : s = []
    · subst hs
      rw [ends_filterLoop_nil,lines,List.flatMap_nil,List.filter_nil,List.append_nil]
    · have hless : (s.drop (nextPiece s).length).length < n := by
        have hpos := nextPiece_pos hs
        have hlength := List.length_pos_iff.mpr hs
        rw [List.length_drop]
        omega
      have hrest : nul ∉ s.drop (nextPiece s).length := fun h => hnul (List.mem_of_mem_drop h)
      rw [ends_filterLoop_cons hs hnul,ih _ hless hrest rfl,pieces_eq hs,List.append_assoc,
        ← List.filter_append,
        List.singleton_append]

/-- Every line with the key in it is handed over, complete and in order, and nothing else. -/
def Filters (key : Text) (func : ℕ) (text output : Text) : Prop :=
  Program.Ends (pipe func) (runCmd (some key) func (some text)) ⟨output,[]⟩
    fun p _ => p.handed = (lines output).filter (key <:+: ·)

theorem filters_iff_pieces {text output : Text} (hfunc : func ≠ 0) (hnul : nul ∉ output) :
    Filters key func text output ↔
      ((lines output).flatMap pieces).filter (key <:+: ·) = (lines output).filter (key <:+: ·) := by
  rw [Filters,runCmd,if_neg hfunc]
  change Program.Ends (pipe func) (.call (.popen (text.take 255)) _) ⟨output,[]⟩ _ ↔ _
  rw [Program.ends_call_of_eq (r := true) (fun _ => Iff.rfl) trivial]
  change Program.Ends (pipe func) ((filterLoop key func).bind fun _ => .call .pclose _)
    ⟨output,[]⟩ _ ↔ _
  rw [Program.ends_bind,ends_filterLoop hnul,Program.ends_call]
  constructor
  · exact fun h => (h.2 0 trivial).of_ret
  · refine fun h => ⟨trivial,fun res _ => ?_⟩
    dsimp only [Program.bind_eq,Program.ret_bind]
    split
    · exact .ret h
    · exact .ret h

/-- Lines with the key in them have to fit into the buffer. -/
theorem filters_iff {text output : Text} (hfunc : func ≠ 0) (hnul : nul ∉ output) :
    Filters key func text output ↔ ∀ l ∈ lines output, key <:+: l → l.length ≤ sizeofLine-1 := by
  rw [filters_iff_pieces hfunc hnul]
  exact filter_pieces_iff (fun a b hab hkey => hkey.trans hab) _

theorem filters_iff_sample : Filters ['k'] 1 ['x'] ['a','\n','k','b','\n','k'] :=
  (filters_iff (by decide) (by decide)).mpr (by decide)

/-- A line of 600 bytes is handed over without its end. -/
theorem long_line_cut : ¬ Filters ['k'] 1 ['x'] ('k' :: List.replicate 599 'a') := by
  rw [filters_iff_pieces (by decide) (by decide +kernel),
    filter_pieces_iff (fun a b hab hkey => hkey.trans hab)]
  intro h
  have hline : 'k' :: List.replicate 599 'a' ∈ lines ('k' :: List.replicate 599 'a') := by
    decide +kernel
  have hlength := h _ hline (List.prefix_append ['k'] _).isInfix
  rw [List.length_cons,List.length_replicate] at hlength
  exact absurd hlength (by decide)

end LixRtos
