/-
Reports of errors show the line of the error.

Main statement: if the evaluation of a source text ends in an error and the text has tokens, then
the report of the error shows the line where it starts, with its number and with carets under it,
provided there is such a line. An error of the scanner is reported without any line
(`report_showsLine`, `strayCharacter_hidden`).

Design notes: what a line is and which number it has is said by the characters of the text alone
(`IsLine`), with the numbers that places have (`Position.ofText`). The lines of a diagnostic are the
same (`IsLine.getElem?`).
-/
import Bytescript.Diagnostic.Report
import Bytescript.Proofs.Tiling
import Bytescript.Session

namespace Bytescript

/-! ### Lines -/

/-- A line with the characters `text` ends where the characters `after` follow. -/
inductive EndsLine (text : List Char) : List Char → Prop where
  | endOfText : text ≠ [] → EndsLine text []
  | lineFeed (rest : List Char) : text.getLast? ≠ some '\r' → EndsLine text ('\n' :: rest)
  | carriageReturn (rest : List Char) : EndsLine text ('\r' :: '\n' :: rest)

/-- The line with the number `n` of a source text. -/
def IsLine (source : String) (n : Nat) (text : String) : Prop :=
  ∃ before after, source.toList = before ++ (text.toList ++ after) ∧
    (Position.ofText before).line = n ∧ (before = [] ∨ before.getLast? = some '\n') ∧
    '\n' ∉ text.toList ∧ EndsLine text.toList after

namespace sourceLinesOf

variable {line text before after rest : List Char} {c : Char}

theorem collect_cons (hc : c ≠ '\n') : collect line (c :: rest) = collect (c :: line) rest := by
  rw [collect] <;> simp_all

theorem collect_lineFeed (hline : line.head? ≠ some '\r') :
    collect line ('\n' :: rest) = String.ofList line.reverse :: collect [] rest := by
  rw [collect]
  rintro line rfl
  simp at hline

theorem exists_collect_lineFeed (line rest : List Char) :
    ∃ first, collect line ('\n' :: rest) = first :: collect [] rest := by
  by_cases hline : line.head? = some '\r'
  · obtain ⟨line, rfl⟩ := List.head?_eq_some_iff.mp hline
    exact ⟨_, by rw [collect]⟩
  · exact ⟨_, collect_lineFeed hline⟩

theorem collect_append (htext : '\n' ∉ text) :
    collect line (text ++ rest) = collect (text.reverse ++ line) rest := by
  induction text generalizing line with
  | nil => rfl
  | cons c text ih =>
    rw [List.mem_cons, not_or] at htext
    rw [List.cons_append, collect_cons (Ne.symm htext.1), ih htext.2, List.reverse_cons,
      List.append_assoc, List.singleton_append]

/-- The line at the beginning of a text. -/
theorem collect_endsLine (htext : '\n' ∉ text) (hafter : EndsLine text after) :
    (collect [] (text ++ after))[0]? = some (String.ofList text) := by
  rw [collect_append htext, List.append_nil]
  cases hafter with
  | endOfText hne =>
    rw [collect]
    · simp
    · simpa using hne
  | lineFeed rest hlast =>
    rw [collect_lineFeed (by rwa [List.head?_reverse])]
    simp
  | carriageReturn rest =>
    rw [collect_cons (by decide), collect]
    simp

/-- The lines after some line breaks are the lines of the text that follows. -/
theorem getElem?_collect (hbefore : before = [] ∧ line = [] ∨ before.getLast? = some '\n') :
    (collect line (before ++ rest))[before.count '\n']? = (collect [] rest)[0]? := by
  induction before generalizing line with
  | nil =>
    rcases hbefore with ⟨-, rfl⟩ | hbefore
    · rfl
    · cases hbefore
  | cons c before ih =>
    have hlast := hbefore.resolve_left (by simp)
    by_cases hc : c = '\n'
    · subst hc
      obtain ⟨first, hfirst⟩ := exists_collect_lineFeed line (before ++ rest)
      rw [List.cons_append, hfirst, List.count_cons_self, List.getElem?_cons_succ]
      refine ih ?_
      cases before with
      | nil => exact .inl ⟨rfl, rfl⟩
      | cons d before => exact .inr (by rwa [List.getLast?_cons_cons] at hlast)
    · rw [List.cons_append, collect_cons hc, List.count_cons_of_ne hc]
      refine ih (.inr ?_)
      cases before with
      | nil => simp_all
      | cons d before => rwa [List.getLast?_cons_cons] at hlast

end sourceLinesOf

/-- The lines that are kept for reports are the lines of the text. -/
theorem IsLine.getElem? {source text : String} {n : Nat} (h : IsLine source n text) :
    0 < n ∧ (sourceLinesOf source)[n - 1]? = some text := by
  obtain ⟨before, after, hsource, rfl, hbefore, htext, hafter⟩ := h
  have hindex : (Position.ofText before).line - 1 = before.count '\n' := Nat.add_sub_cancel_left ..
  refine ⟨Nat.add_pos_left Nat.one_pos _, ?_⟩
  rw [sourceLinesOf, hsource, hindex, sourceLinesOf.getElem?_collect (hbefore.imp_left (⟨·, rfl⟩)),
    sourceLinesOf.collect_endsLine htext hafter, String.ofList_toList]

/-! ### The lines of a report -/

namespace Diagnostic

open Text (Palette)

variable {d : Diagnostic} {text : String}

/-- The report has a line with the number and the text of the faulty line, and under it the
carets. -/
def ShowsLine (palette : Palette) (d : Diagnostic) (text : String) : Prop :=
  ∃ before after, d.report palette = before ++ "\n" ++
    (palette.paint .red (gutter d.span.start.line) ++ " " ++ text ++ "\n" ++
      caretRow palette d.span ++ "\n") ++ after

theorem mem_contextLines (hpos : 0 < d.span.start.line)
    (htext : d.sourceLines[d.span.start.line - 1]? = some text) :
    (d.span.start.line, text) ∈ contextLines d := by
  obtain ⟨hlt, -⟩ := List.getElem?_eq_some_iff.mp htext
  have hindex : ∀ first, first ≤ d.span.start.line → 0 < first →
      (d.span.start.line, text) ∈ ((d.sourceLines.drop (first - 1)).take
        (min (d.span.start.line + 1) d.sourceLines.length + 1 - first)).mapIdx
          fun i text => (first + i, text) := by
    intro first hle hfirst
    have hsum : first - 1 + (d.span.start.line - first) = d.span.start.line - 1 := by omega
    refine List.mem_of_getElem? (i := d.span.start.line - first) ?_
    rw [List.getElem?_mapIdx, List.getElem?_take_of_lt (by omega), List.getElem?_drop, hsum, htext,
      Option.map_some, Nat.add_sub_cancel' hle]
  rw [contextLines]
  split
  · exact hindex _ (by omega) (by omega)
  · exact hindex _ hpos Nat.one_pos

/-- A text that ends a line still does so when context lines follow. -/
theorem exists_append_join (palette : Palette) (span : Span) (lines : List (Nat × String))
    (before : String) :
    ∃ front, before ++ "\n" ++ String.join
      (lines.map fun line => contextLine palette span line.1 line.2) = front ++ "\n" := by
  induction lines generalizing before with
  | nil => exact ⟨before, by simp⟩
  | cons line lines ih =>
    have hline : ∃ body, contextLine palette span line.1 line.2 = body ++ "\n" := by
      rw [contextLine]
      split <;> exact ⟨_, rfl⟩
    obtain ⟨body, hbody⟩ := hline
    obtain ⟨front, hfront⟩ := ih (before ++ "\n" ++ body)
    refine ⟨front, ?_⟩
    rw [List.map_cons, String.join_cons, hbody, ← hfront]
    simp only [String.append_assoc]

theorem exists_report (palette : Palette) (d : Diagnostic) :
    ∃ header rest, d.report palette = header ++ d.context palette ++ rest :=
  ⟨_, _, by rw [report, String.append_assoc]⟩

/-- If the source is known, the line of the error is shown. -/
theorem showsLine_of_getElem? (palette : Palette) (hpos : 0 < d.span.start.line)
    (htext : d.sourceLines[d.span.start.line - 1]? = some text) : ShowsLine palette d text := by
  obtain ⟨front, back, hlines⟩ := List.append_of_mem (mem_contextLines hpos htext)
  have hknown : d.sourceLines.isEmpty = false := by
    cases hsource : d.sourceLines with
    | nil =>
      rw [hsource] at htext
      cases htext
    | cons => rfl
  have hcontext : d.context palette = "" ++ "\n" ++ String.join
      ((contextLines d).map fun line => contextLine palette d.span line.1 line.2) := by
    rw [context, hknown]
    rfl
  -- the lines before that of the error are part of what stands before it
  obtain ⟨before, hbefore⟩ := exists_append_join palette d.span front ""
  rw [hlines, List.map_append, List.map_cons, String.join_append, String.join_cons,
    ← String.append_assoc, hbefore, contextLine, if_pos rfl] at hcontext
  obtain ⟨header, rest, hreport⟩ := exists_report palette d
  refine ⟨header ++ before,
    String.join (back.map fun line => contextLine palette d.span line.1 line.2) ++ rest, ?_⟩
  rw [hreport, hcontext]
  simp only [String.append_assoc]

end Diagnostic

/-! ### Errors of an evaluation -/

/-- The error of an evaluation. -/
def Evaluation.error? {V : Type} : Evaluation V → Option Diagnostic
  | error d => some d
  | _ => none

/-- The errors that the evaluation of a source text can end in, by the stage that raised them. -/
inductive Raised (fuel : Nat) (config : MachineConfig) (file source : String) :
    Diagnostic → Prop where
  | scanning {e : Located ScanError} : scan source = .error e →
      Raised fuel config file source (.ofScanError file e)
  | parsing {tokens : List Token} {e : Located ParseError} : scan source = .ok tokens →
      parse tokens = .error e → Raised fuel config file source (.ofParseError file source e)
  | compiling {tokens : List Token} {ast : Ast} {e : Located CompileError} :
      scan source = .ok tokens → parse tokens = .ok ast → compileFrom {} ast = .error e →
      Raised fuel config file source (.ofCompileError file source e)
  | running {p : Program} {m : Machine Console Value} {fault : Fault} :
      compileSource file source = .ok p → runProgram fuel config p #[] 0 = (.fault fault, m) →
      Raised fuel config file source (m.locate fault file source)

section

variable {fuel : Nat} {config : MachineConfig} {file source : String} {d : Diagnostic}
  {console : Console}

theorem raised_of_compileSource (h : compileSource file source = .error d) :
    Raised fuel config file source d := by
  rw [compileSource, compileSourceFrom, parseSource, scanSource] at h
  cases hscan : scan source with
  | error e =>
    rw [hscan] at h
    cases h
    exact .scanning hscan
  | ok tokens =>
    rw [hscan] at h
    replace h : ((parse tokens).mapError (.ofParseError file source) >>= fun ast =>
        (compileFrom {} ast).mapError (.ofCompileError file source)).map Prod.fst = .error d := h
    cases hparse : parse tokens with
    | error e =>
      rw [hparse] at h
      cases h
      exact .parsing hscan hparse
    | ok ast =>
      rw [hparse] at h
      replace h : ((compileFrom {} ast).mapError (.ofCompileError file source)).map Prod.fst =
          .error d := h
      cases hcompile : compileFrom {} ast with
      | error e =>
        rw [hcompile] at h
        cases h
        exact .compiling hscan hparse hcompile
      | ok result =>
        rw [hcompile] at h
        cases h

theorem exists_scan_of_compileSource {p : Program} (h : compileSource file source = .ok p) :
    ∃ tokens, scan source = .ok tokens := by
  cases hscan : scan source with
  | ok tokens => exact ⟨tokens, rfl⟩
  | error e =>
    rw [compileSource, compileSourceFrom, parseSource, scanSource, hscan] at h
    cases h

theorem raised_of_evaluateSource
    (h : evaluateSource fuel config file source = (.error d, console)) :
    Raised fuel config file source d := by
  rw [evaluateSource] at h
  cases hcompile : compileSource file source with
  | error e =>
    rw [hcompile] at h
    cases h
    exact raised_of_compileSource hcompile
  | ok p =>
    rw [hcompile] at h
    obtain ⟨hd, -⟩ := Prod.mk.inj h
    cases hrun : runProgram fuel config p #[] 0 with
    | mk outcome m =>
      rw [hrun] at hd
      cases outcome with
      | value v => cases hd
      | fault fault =>
        cases hd
        exact .running hcompile hrun
      | outOfFuel => cases hd

/-- Once a text has tokens, the errors of all later stages know its lines. -/
theorem Raised.sourceLines_eq {tokens : List Token} (h : Raised fuel config file source d)
    (htokens : scan source = .ok tokens) : d.sourceLines = sourceLinesOf source := by
  cases h with
  | scanning hscan =>
    rw [hscan] at htokens
    cases htokens
  | parsing | compiling | running => rfl

/-- The scanner does not give the text to its errors. -/
theorem Raised.eq_ofScanError {e : Located ScanError} (h : Raised fuel config file source d)
    (herror : scan source = .error e) : d = .ofScanError file e := by
  cases h with
  | scanning hscan =>
    rw [hscan] at herror
    cases herror
    rfl
  | parsing hscan | compiling hscan =>
    rw [hscan] at herror
    cases herror
  | running hcompile =>
    obtain ⟨tokens, hscan⟩ := exists_scan_of_compileSource hcompile
    rw [hscan] at herror
    cases herror

end

/-- The report of an error of a text that has tokens shows the line where the error starts, if there
is such a line. The report of an error of the scanner shows no lines. -/
theorem report_showsLine {fuel : Nat} {config : MachineConfig} {file source : String}
    {d : Diagnostic} {console : Console}
    (h : evaluateSource fuel config file source = (.error d, console)) :
    (∀ tokens text palette, scan source = .ok tokens → IsLine source d.span.start.line text →
      d.ShowsLine palette text) ∧
    ∀ e palette, scan source = .error e → d.span = e.span ∧ d.context palette = "" := by
  have hraised := raised_of_evaluateSource h
  constructor
  · intro tokens text palette htokens hline
    obtain ⟨hpos, hget⟩ := hline.getElem?
    rw [← hraised.sourceLines_eq htokens] at hget
    exact Diagnostic.showsLine_of_getElem? palette hpos hget
  · intro e palette herror
    rw [hraised.eq_ofScanError herror]
    exact ⟨rfl, rfl⟩

/-- Two lines, the second of which divides by zero. -/
def zeroDivision : String := "let a = 1;\r\na / (a - 1);\n"

theorem report_showsLine_zeroDivision : ∃ d console,
    evaluateSource 100 {} "zero" zeroDivision = (.error d, console) ∧
      IsLine zeroDivision d.span.start.line "a / (a - 1);" ∧
      d.ShowsLine .colored "a / (a - 1);" := by
  have hcheck : (evaluateSource 100 {} "zero" zeroDivision).1.error?.map (·.span.start.line) =
      some 2 := by
    decide +kernel
  have hscan : (scan zeroDivision).isOk = true := by decide +kernel
  have hline : IsLine zeroDivision 2 "a / (a - 1);" :=
    ⟨"let a = 1;\r\n".toList, "\n".toList, by decide, by decide, .inr (by decide), by decide,
      .lineFeed [] (by decide)⟩
  obtain ⟨tokens, htokens⟩ : ∃ tokens, scan zeroDivision = .ok tokens := by
    cases h : scan zeroDivision with
    | error e =>
      rw [h] at hscan
      cases hscan
    | ok tokens => exact ⟨tokens, rfl⟩
  cases h : evaluateSource 100 {} "zero" zeroDivision with
  | mk evaluation console =>
    rw [h] at hcheck
    cases evaluation with
    | value | outOfFuel => cases hcheck
    | error d =>
      have hd : d.span.start.line = 2 := Option.some.inj hcheck
      rw [← hd] at hline
      exact ⟨d, console, rfl, hline, (report_showsLine h).1 tokens _ .colored htokens hline⟩

/-- The report of a stray character does not show its line. -/
theorem strayCharacter_hidden : ∃ d,
    (∀ fuel config, evaluateSource fuel config "<script>" "1 @ 2" = (.error d, {})) ∧
      IsLine "1 @ 2" d.span.start.line "1 @ 2" ∧
      ∀ palette before after, d.report palette ≠ before ++ "1 @ 2" ++ after := by
  refine ⟨_, fun fuel config => rfl, ⟨[], [], by decide, by decide, .inl rfl, by decide,
    .endOfText (by decide)⟩, fun palette before after hreport => ?_⟩
  have hmem : '2' ∈ (before ++ "1 @ 2" ++ after).toList := by simp
  rw [← hreport] at hmem
  revert hmem
  cases palette <;> decide +kernel

end Bytescript
