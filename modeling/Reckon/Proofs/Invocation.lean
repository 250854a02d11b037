import Reckon.Command.Run
import Reckon.Proofs.Unprompted

/-!
Statements among the arguments and the same statements on standard input. The two ways to run them
differ only in the lines at hand. Main statement: `arguments_respond_as_lines`.
-/

namespace Reckon

namespace Text

/-- Lines written one after another, each ended by a break. -/
def ofLines (lines : List (List Char)) : List Char := lines.flatMap (· ++ ['\n'])

theorem linesFrom_append {line : List Char} (h : '\n' ∉ line) (before rest : List Char) :
    linesFrom before (line ++ '\n' :: rest) = (before.reverse ++ line) :: linesFrom [] rest := by
  induction line generalizing before with
  | nil => simp [linesFrom]
  | cons ch line ih =>
    obtain ⟨hch, hline⟩ := not_or.mp (mt List.mem_cons.mpr h)
    rw [List.cons_append, linesFrom.eq_3 _ _ _ fun e => hch e.symm, ih hline]
    simp

/-- What was written as lines is read back line by line. -/
theorem lines_ofLines {ls : List (List Char)} (h : ∀ line ∈ ls, '\n' ∉ line) :
    lines (ofLines ls) = ls := by
  induction ls with
  | nil => rfl
  | cons line ls ih =>
    obtain ⟨hline, hls⟩ := List.forall_mem_cons.mp h
    have hcons : ofLines (line :: ls) = line ++ '\n' :: ofLines ls := by simp [ofLines]
    have hrest : linesFrom [] (ofLines ls) = ls := ih hls
    rw [lines, hcons, linesFrom_append hline, hrest]
    rfl

theorem dropReturn_of_not_last {line : List Char} (h : line.getLast? ≠ some '\r') :
    dropReturn line = line := if_neg h

end Text

namespace Command

/-- A text that can stand on a line of its own and is read from there as it is. -/
structure IsLine (line : String) : Prop where
  unbroken : '\n' ∉ line.toList
  whole : line.toList.getLast? ≠ some '\r'
  short : line.utf8ByteSize < lineLimit

/-- The text that has the lines, each ended by a break. -/
def textOf (lines : List String) : String := String.ofList (Text.ofLines (lines.map String.toList))

theorem readable_textOf {lines : List String} (h : ∀ line ∈ lines, IsLine line) :
    readable (textOf lines) = (lines, false) := by
  have hall : Text.lines (textOf lines).toList = lines.map String.toList := by
    rw [textOf, String.toList_ofList]
    apply Text.lines_ofLines
    simpa using fun line hline => (h line hline).unbroken
  have hshort : (lines.map String.toList).takeWhile isShort = lines.map String.toList := by
    rw [List.takeWhile_eq_self_iff]
    simpa [isShort] using fun line hline => (h line hline).short
  have hwhole : ∀ line ∈ lines, String.ofList (Text.dropReturn line.toList) = line := by
    intro line hline
    rw [Text.dropReturn_of_not_last (h line hline).whole, String.ofList_toList]
  simp only [readable, hall, hshort, List.map_map, Nat.lt_irrefl, decide_false]
  exact congrArg (·, false) ((List.map_congr_left hwhole).trans (List.map_id' lines))

theorem Argument.ofText_eq_endOfFlags {arg : String} (h : ofText arg = .endOfFlags) :
    arg = "--" := by
  unfold ofText at h
  split at h
  · next hdashes => exact String.toList_inj.mp hdashes
  · cases h
  · cases h
  · next body _ _ _ =>
    dsimp only at h
    generalize (if body.head? = some '-' then body.tail else body) = body at h
    split at h <;> cases h
  · cases h

/-- Flags that leave no other arguments are read in the same way before a `--`, and what comes after
it is left. -/
theorem readFlags_append {flags : List String} {o p : Options} (h : readFlags o flags = .ok (p, []))
    (hend : "--" ∉ flags) (rest : List String) :
    readFlags o (flags ++ "--" :: rest) = .ok (p, rest) := by
  fun_induction readFlags o flags with
  | case1 o =>
    cases h
    rfl
  | case3 o arg args harg =>
    exact absurd (List.mem_cons.mpr (.inl (Argument.ofText_eq_endOfFlags harg).symm)) hend
  | case6 o arg args name set hflag harg ih =>
    simp only [List.cons_append, readFlags, harg, hflag]
    exact ih h (List.not_mem_of_not_mem_cons hend)
  | case7 o arg args name set hflag value b hvalue harg ih =>
    simp only [List.cons_append, readFlags, harg, hflag, hvalue]
    exact ih h (List.not_mem_of_not_mem_cons hend)
  | case9 o arg args name set hflag value harg ih =>
    obtain ⟨o', hset, h⟩ := bind_eq_ok_iff.mp h
    simp only [List.cons_append, readFlags, harg, hflag, hset, ok_bind]
    exact ih o' h (List.not_mem_of_not_mem_cons hend)
  | case10 o arg name set hflag value args harg ih =>
    obtain ⟨o', hset, h⟩ := bind_eq_ok_iff.mp h
    simp only [List.cons_append, readFlags, harg, hflag, hset, ok_bind]
    exact ih o' h (List.not_mem_of_not_mem_cons (List.not_mem_of_not_mem_cons hend))
  | case2 | case4 | case5 | case8 | case11 => cases h

namespace Options

variable {o : Options}

theorem folded_of_not_fold (h : o.fold = false) (foldWidth : String → String) :
    o.folded foldWidth = id := by
  funext s
  simp [folded, h]

/-- A statement that does not end early runs in the same way with lines at hand, and uses none. -/
theorem statement_untouched {line : String} (h : ¬EndsEarly (Reading.statement {} line))
    (s : State) (further : List String) :
    o.statement s line further = ((o.statement s line []).1, 0) := by
  obtain ⟨hsame, hused⟩ := Reading.statement_untouched further h
  rw [hsame] at hused
  unfold statement
  rw [hsame]
  cases hread : Reading.statement {} line with
  | error failed =>
    rw [hread] at hused
    exact congrArg (Prod.mk _) hused
  | ok stmt =>
    rw [hread] at hused
    exact congrArg (Prod.mk _) hused

theorem arguments_of_ended {s : State} (h : s.exit.isSome) (lines : List String) :
    o.arguments s lines = s := by
  cases lines with
  | nil => rfl
  | cons line lines => exact if_pos h

/-- Lines that do not end early run like arguments. -/
theorem lines_eq_arguments {lines : List String}
    (h : ∀ line ∈ lines, ¬EndsEarly (Reading.statement {} line)) (s : State) :
    o.lines s lines = o.arguments s lines := by
  induction lines generalizing s with
  | nil => rw [Options.lines, arguments]
  | cons line rest ih =>
    obtain ⟨hline, hrest⟩ := List.forall_mem_cons.mp h
    rw [Options.lines, arguments, statement_untouched hline]
    simp only [List.drop_zero, ih hrest]

end Options

namespace Plan

/-- Statements run in the same way from the arguments and from standard input. -/
theorem run_eq_run {o : Options} (hfold : o.fold = false) {lines : List String}
    (hlines : ∀ line ∈ lines, IsLine line)
    (hends : ∀ line ∈ lines, ¬EndsEarly (Reading.statement {} line))
    (text : Except String String) (libraries : Libraries) :
    run ⟨o, lines, none⟩ text libraries =
      run ⟨o, [], some .standard⟩ (.ok (textOf lines)) libraries := by
  simp only [run, runSource, readable_textOf hlines, Options.folded_of_not_fold hfold, List.map_id,
    Options.lines_eq_arguments hends, List.map_nil, Options.arguments]
  generalize List.foldl _ _ _ = s
  by_cases hended : s.exit.isSome
  · simp [hended, Options.arguments_of_ended]
  · simp [hended]

theorem ofArgs_of_readFlags {args statements : List String} {o : Options}
    (h : readFlags {} args = .ok (o, statements)) (hin : o.input = "") :
    ofArgs args =
      if o.precision ≤ 0 then
        .error ⟨"", s!"precision ({o.precision}) must be positive\n", 1⟩
      else if o.depth ≤ 0 then .error ⟨"", s!"depth ({o.depth}) must be positive\n", 1⟩
      else .ok ⟨o, statements, if statements.isEmpty then some .standard else none⟩ := by
  simp [ofArgs, h, hin]

end Plan

end Command

/-- With the same flags, no folding and no file to read, statements that can stand on lines and do
not end early get the same response as arguments after `--`, where nothing is read, and as the lines
of standard input. -/
theorem Command.arguments_respond_as_lines {m : Type → Type} [Monad m] [LawfulMonad m]
    {flags lines : List String} {o : Options} (hflags : readFlags {} flags = .ok (o, []))
    (hend : "--" ∉ flags) (hfold : o.fold = false) (hin : o.input = "") (hne : lines ≠ [])
    (hlines : ∀ line ∈ lines, IsLine line)
    (hends : ∀ line ∈ lines, ¬EndsEarly (Reading.statement {} line))
    {read : Source → m (Except String String)}
    (hread : read .standard = pure (.ok (textOf lines)))
    (unread : Source → m (Except String String)) (libraries : Libraries) :
    respond unread (flags ++ "--" :: lines) libraries = respond read flags libraries := by
  have hempty : lines.isEmpty = false := by simpa using hne
  simp only [respond, Plan.ofArgs_of_readFlags (readFlags_append hflags hend lines) hin,
    Plan.ofArgs_of_readFlags hflags hin]
  by_cases hprecision : o.precision ≤ 0
  · simp only [hprecision, ↓reduceIte]
  by_cases hdepth : o.depth ≤ 0
  · simp only [hprecision, hdepth, ↓reduceIte]
  · simp only [hprecision, hdepth, hempty, hread, ↓reduceIte, Bool.false_eq_true,
      List.isEmpty_nil, pure_bind]
    exact congrArg pure (Plan.run_eq_run hfold hlines hends _ libraries)

/-- A vector that is kept and doubled, from the arguments and from standard input. -/
theorem Command.vector_responds_as_line :
    let flags := ["-echo", "-pretty"]
    let lines := ["v = <pi, e>", "v + v"]
    respond (m := Id) (fun _ => .error "closed") (flags ++ "--" :: lines) =
      respond (m := Id) (fun _ => .ok (textOf lines)) flags := by
  intro flags lines
  have hflags : readFlags {} flags = .ok ({ echo := true, pretty := true }, []) := by cbv
  have hlines : ∀ line ∈ lines, IsLine line := by
    simp only [lines, List.forall_mem_cons]
    refine ⟨⟨?_, ?_, ?_⟩, ⟨?_, ?_, ?_⟩, by simp⟩ <;> decide
  have hvector : Reading.statement {} "v = <pi, e>" =
      .ok ⟨.assign "v" (.vector [.var "pi", .var "e"]), 0⟩ := by
    have hsplit : splitAssignment "v = <pi, e>".toList =
      some ("v ".toList, " <pi, e>".toList) := by cbv
    unfold Reading.statement
    rw [hsplit]
    cbv
  have hsum : Reading.statement {} "v + v" =
      .ok ⟨.expr (.binary .add (.var "v") (.var "v")), 0⟩ := by cbv
  have hends : ∀ line ∈ lines, ¬EndsEarly (Reading.statement {} line) := by
    simp only [lines, List.forall_mem_cons]
    exact ⟨not_endsEarly_of_ok hvector, not_endsEarly_of_ok hsum, by simp⟩
  exact arguments_respond_as_lines hflags (by decide) rfl rfl (by simp [lines]) hlines hends rfl
    _ {}

end Reckon
