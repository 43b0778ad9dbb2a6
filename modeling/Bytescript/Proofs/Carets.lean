/-
Where the carets of a report stand.

Under the line of an error a report has a row of carets. It is indented by a fixed number of blanks
and the column of the error. The row of the line begins with its number, which takes four places, or
more if it has more digits.

Main statement: each digit beyond the fourth moves the line one place to the right and leaves the
carets where they are, so the first caret stands under the character where the error starts exactly
if the line has a number below 10000 (`carets_placed`, `carets_left_of_error`).
-/
import Bytescript.Proofs.Reports
import Mathlib.Data.List.Basic

namespace Bytescript

/-- The span ends later on the line where it starts. -/
def Span.EndsOnLine (span : Span) : Prop :=
  span.stop.line = span.start.line ∧ span.start.column < span.stop.column

namespace Diagnostic

/-- What stands before the text of a line in its row: the number and a bar. -/
def margin (line : Nat) : String :=
  gutter line ++ " "

/-- A report has a row for the line with the number `line` and the characters `passed ++ rest`. The
next row is `indent` blanks and `count` carets. -/
structure Marks (report : String) (line : Nat) (passed rest : String) (indent count : Nat) :
    Prop where
  rows : ∃ before after, report = before ++ "\n" ++ (margin line ++ (passed ++ rest)) ++ "\n" ++
    (row indent ' ' ++ row count '^') ++ "\n" ++ after
  isRow : '\n' ∉ (passed ++ rest).toList

section

variable {d : Diagnostic} {text : String}

/-- In the report without styles the carets stand behind as many blanks as the column says, and
six. -/
theorem ShowsLine.marks {passed rest : String} (h : ShowsLine .plain d (passed ++ rest))
    (hrow : '\n' ∉ (passed ++ rest).toList) :
    Marks (d.report .plain) d.span.start.line passed rest (6 + d.span.start.column)
      (caretCount d.span) := by
  obtain ⟨before, after, hreport⟩ := h
  refine ⟨⟨before, after, hreport.trans ?_⟩, hrow⟩
  rw [margin, caretRow]
  simp only [Text.Palette.paint, String.append_assoc]

theorem length_row (n : Nat) (c : Char) : (row n c).length = n := by
  rw [row, String.length_ofList, List.length_replicate]

/-- A number of more than four digits makes the margin wider. -/
theorem length_margin (line : Nat) : (margin line).length = 7 + ((toString line).length - 4) := by
  rw [margin, gutter]
  simp only [String.length_append, length_row]
  show 4 - (toString line).length + (toString line).length + 2 + 1 = _
  omega

theorem length_toString_le_four_iff (line : Nat) : (toString line).length ≤ 4 ↔ line < 10000 :=
  Nat.length_repr_le_iff (by decide)

end

/-- The rows for the line of an error, and how far the carets are off: by the number of digits of
the line's number beyond the fourth. -/
theorem carets_placed (d : Diagnostic) {source text : String}
    (hline : IsLine source d.span.start.line text) (hfirst : 1 ≤ d.span.start.column)
    (hlast : d.span.start.column ≤ text.length + 1) :
    ∃ passed rest indent count, text = passed ++ rest ∧
      passed.length + 1 = d.span.start.column ∧
      Marks ((d.withSource source).report .plain) d.span.start.line passed rest indent count ∧
      (d.span.EndsOnLine → count = d.span.stop.column - d.span.start.column) ∧
      (¬ d.span.EndsOnLine → count = 1) ∧
      indent + ((toString d.span.start.line).length - 4) =
        (margin d.span.start.line ++ passed).length ∧
      (indent = (margin d.span.start.line ++ passed).length ↔ d.span.start.line < 10000) := by
  obtain ⟨hpos, hget⟩ := hline.getElem?
  obtain ⟨-, -, -, -, -, hrow, -⟩ := hline
  -- the characters of the line before the column of the error
  obtain ⟨passed, rest, rfl, hpassed⟩ : ∃ passed rest, text = passed ++ rest ∧
      passed.length + 1 = d.span.start.column := by
    refine ⟨String.ofList (text.toList.take (d.span.start.column - 1)),
      String.ofList (text.toList.drop (d.span.start.column - 1)), ?_, ?_⟩
    · rw [← String.ofList_append, List.take_append_drop, String.ofList_toList]
    · rw [String.length_ofList, List.length_take, String.length_toList]
      omega
  have hmarks := (showsLine_of_getElem? (d := d.withSource source) .plain hpos hget).marks hrow
  have hplace : 6 + d.span.start.column + ((toString d.span.start.line).length - 4) =
      (margin d.span.start.line ++ passed).length := by
    rw [String.length_append, length_margin]
    omega
  refine ⟨passed, rest, 6 + d.span.start.column, caretCount d.span, rfl, hpassed, hmarks,
    fun h => if_pos h, fun h => if_neg h, hplace, ?_⟩
  rw [← length_toString_le_four_iff]
  omega

/-- A name on the second line of a text that is not declared. -/
def undeclaredName : Diagnostic :=
  { kind := .unresolvedName, message := "Cannot resolve name 'foo'"
    span := ⟨⟨2, 12, 22⟩, ⟨2, 15, 25⟩⟩, file := "main" }

theorem carets_placed_undeclaredName :
    IsLine "let a = 1;\nlet foo2 = foo;\n" 2 "let foo2 = foo;" ∧
      ∃ passed rest indent count, "let foo2 = foo;" = passed ++ rest ∧ passed.length + 1 = 12 ∧
        Marks ((undeclaredName.withSource "let a = 1;\nlet foo2 = foo;\n").report .plain) 2 passed
          rest indent count ∧
        count = 3 ∧ indent = (margin 2 ++ passed).length := by
  have hline : IsLine "let a = 1;\nlet foo2 = foo;\n" 2 "let foo2 = foo;" :=
    ⟨"let a = 1;\n".toList, "\n".toList, by decide, by decide, .inr (by decide), by decide,
      .lineFeed [] (by decide)⟩
  obtain ⟨passed, rest, indent, count, htext, hpassed, hmarks, hcount, -, -, hplace⟩ :=
    carets_placed undeclaredName hline (by decide) (by decide)
  exact ⟨hline, passed, rest, indent, count, htext, hpassed, hmarks, hcount ⟨rfl, by decide⟩,
    hplace.mpr (by decide)⟩

/-! ### Beyond four digits -/

/-- A name behind `n` line breaks. -/
def nameAfter (n : Nat) : String :=
  String.ofList (List.replicate n '\n' ++ ['x'])

/-- The name is not declared. -/
def errorAfter (n : Nat) : Diagnostic :=
  { kind := .unresolvedName, message := "Cannot resolve name 'x'"
    span := ⟨⟨n + 1, 1, n⟩, ⟨n + 1, 2, n + 1⟩⟩, file := "main" }

theorem isLine_nameAfter (n : Nat) : IsLine (nameAfter n) (n + 1) "x" := by
  refine ⟨List.replicate n '\n', [], String.toList_ofList, ?_, ?_, by decide,
    .endOfText (by decide)⟩
  · simp [Position.ofText, Nat.add_comm]
  · cases n with
    | zero => exact .inl rfl
    | succ n => exact .inr (by simp [List.getLast?_replicate])

theorem sourceLinesOf_nameAfter (n : Nat) :
    sourceLinesOf (nameAfter n) = List.replicate n "" ++ ["x"] := by
  rw [sourceLinesOf, nameAfter, String.toList_ofList]
  induction n with
  | zero => rfl
  | succ n ih =>
    rw [List.replicate_succ, List.cons_append, sourceLinesOf.collect_lineFeed (by simp), ih]
    rfl

theorem contextLines_errorAfter (n : Nat) :
    contextLines ((errorAfter (n + 1)).withSource (nameAfter (n + 1))) =
      [(n + 1, ""), (n + 2, "x")] := by
  have hlines : ((errorAfter (n + 1)).withSource (nameAfter (n + 1))).sourceLines =
      List.replicate (n + 1) "" ++ ["x"] := sourceLinesOf_nameAfter (n + 1)
  have hdrop : (List.replicate (n + 1) "" ++ ["x"]).drop n = ["", "x"] := by
    rw [List.replicate_succ', List.append_assoc]
    exact List.drop_left' List.length_replicate
  rw [contextLines, hlines]
  simp [errorAfter, withSource, hdrop]

theorem context_errorAfter (n : Nat) :
    ((errorAfter (n + 1)).withSource (nameAfter (n + 1))).context .plain =
      "\n" ++ (margin (n + 1) ++ "\n" ++ (margin (n + 2) ++ "x\n       ^\n")) := by
  have hknown : ((errorAfter (n + 1)).withSource (nameAfter (n + 1))).sourceLines.isEmpty =
      false := by
    show (sourceLinesOf (nameAfter (n + 1))).isEmpty = false
    rw [sourceLinesOf_nameAfter]
    rfl
  have hstart : (errorAfter (n + 1)).span.start.line = n + 2 := rfl
  have hbefore : contextLine .plain (errorAfter (n + 1)).span (n + 1) "" =
      margin (n + 1) ++ "\n" := by
    rw [contextLine, hstart, if_neg (by omega)]
    simp only [Text.Palette.paint, margin, String.append_empty]
  have hline : contextLine .plain (errorAfter (n + 1)).span (n + 2) "x" =
      margin (n + 2) ++ "x\n       ^\n" := by
    have hcarets : caretRow .plain (errorAfter (n + 1)).span = "       ^" := by
      simp [caretRow, caretCount, errorAfter, row, Text.Palette.paint]
    rw [contextLine, hstart, if_pos rfl, hcarets]
    simp only [Text.Palette.paint, margin, String.append_assoc]
    rfl
  rw [context, hknown, contextLines_errorAfter]
  simp only [Bool.false_eq_true, if_false, List.map_cons, List.map_nil]
  rw [String.join_cons, String.join_cons]
  show "\n" ++ (contextLine .plain (errorAfter (n + 1)).span (n + 1) "" ++
    (contextLine .plain (errorAfter (n + 1)).span (n + 2) "x" ++ "")) = _
  rw [hbefore, hline, String.append_empty]

/-- The report of the error up to its only caret. -/
def rowsAfter : String :=
  "NameError: Cannot resolve name 'x' at main:10000:1\n\n9999 | \n10000 | x\n       "

theorem report_errorAfter :
    ((errorAfter 9999).withSource (nameAfter 9999)).report .plain =
      rowsAfter ++ "^" ++ "\n" := by
  have hcontext : ((errorAfter 9999).withSource (nameAfter 9999)).context .plain = _ :=
    context_errorAfter 9998
  rw [report, hcontext]
  decide +kernel

/-- If a report has one caret only, the blanks of its row are the last characters before it. -/
theorem Marks.blanks_before {before after passed rest : String} {line indent : Nat}
    (h : Marks (before ++ "^" ++ after) line passed rest indent 1) (hbefore : '^' ∉ before.toList)
    (hafter : '^' ∉ after.toList) : ∃ rows, before.toList = rows ++ List.replicate indent ' ' := by
  obtain ⟨⟨front, back, hrows⟩, -⟩ := h
  have hchars : before.toList ++ '^' :: after.toList =
      (front.toList ++ '\n' :: ((margin line ++ (passed ++ rest)).toList ++ '\n' ::
        List.replicate indent ' ')) ++ '^' :: '\n' :: back.toList := by
    simpa [row] using congrArg String.toList hrows
  obtain ⟨heq, -⟩ := (List.append_cons_inj_of_notMem hbefore hafter).mp hchars
  exact ⟨front.toList ++ '\n' :: ((margin line ++ (passed ++ rest)).toList ++ ['\n']),
    by simp [heq]⟩

/-- The line with the number 10000 starts one place further to the right than the carets assume, so
there is no caret under its first character. -/
theorem carets_left_of_error :
    IsLine (nameAfter 9999) (errorAfter 9999).span.start.line "x" ∧
      (errorAfter 9999).span.start.column = 1 ∧ (errorAfter 9999).span.EndsOnLine ∧
      ¬ ∃ passed rest indent, "x" = passed ++ rest ∧ passed.length + 1 = 1 ∧
        Marks (((errorAfter 9999).withSource (nameAfter 9999)).report .plain) 10000 passed rest
          indent 1 ∧ indent = (margin 10000 ++ passed).length := by
  refine ⟨isLine_nameAfter 9999, rfl, ⟨rfl, by decide⟩, ?_⟩
  rintro ⟨passed, rest, indent, -, hpassed, hmarks, hindent⟩
  have height : indent = 8 := by
    rw [hindent, String.length_append, show (margin 10000).length = 8 by decide +kernel]
    omega
  rw [report_errorAfter, height] at hmarks
  obtain ⟨rows, hrows⟩ := hmarks.blanks_before (by decide) (by decide)
  -- the eighth character before the caret is a line break
  have hblank : rowsAfter.toList.reverse[7]? = some ' ' := by
    rw [hrows]
    simp
  revert hblank
  decide

end Diagnostic

end Bytescript
