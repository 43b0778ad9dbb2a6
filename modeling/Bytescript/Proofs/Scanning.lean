/-
What the scanner reads, step by step.

* `Position.through` — the place after a piece of text, character by character;
* `ScanStep.Reads` — the piece of text that a step takes from the beginning of the text, and where
  it ends: every step of the scanner reads such a piece (`scanStep_reads`), and a step that gives no
  token reads a blank or a comment;
* `Scans` — the tokens of a text as a relation, one rule for each kind of step. `scan` computes it
  (`scan_ok_iff`).

Design notes: the scanner moves its position in several ways: by one character, by the length of
what it took, or to the next line. All of them are `Position.through` of the piece that was read, so
nothing else has to be said about lines and columns.
-/
import Bytescript.Token.Scan

namespace Bytescript

/-! ### Places -/

namespace Position

/-- The place after a piece of text. -/
def through (p : Position) (text : List Char) : Position :=
  text.foldl after p

@[simp]
theorem through_nil (p : Position) : p.through [] = p := rfl

@[simp]
theorem through_cons (p : Position) (c : Char) (text : List Char) :
    p.through (c :: text) = (p.after c).through text := rfl

theorem after_of_ne {c : Char} (h : c ≠ '\n') (p : Position) : p.after c = p.next :=
  if_neg h

theorem offset_through (p : Position) (text : List Char) :
    (p.through text).offset = p.offset + text.length := by
  induction text generalizing p with
  | nil => rfl
  | cons c text ih =>
    have hafter : (p.after c).offset = p.offset + 1 := by
      rw [after]
      split <;> rfl
    rw [through_cons, ih, hafter, List.length_cons]
    omega

theorem skip_skip (p : Position) (m n : Nat) : (p.skip m).skip n = p.skip (m + n) := by
  simp only [skip, Nat.add_assoc]

/-- Within a line the column moves along. -/
theorem through_of_line {text : List Char} (h : ∀ c ∈ text, c ≠ '\n') (p : Position) :
    p.through text = p.skip text.length := by
  induction text generalizing p with
  | nil => rfl
  | cons c text ih =>
    have hrest := ih fun d hd => h d (List.mem_cons_of_mem c hd)
    rw [through_cons, after_of_ne (h c List.mem_cons_self), hrest, List.length_cons,
      Nat.add_comm, ← skip_skip]
    rfl

end Position

/-! ### Steps -/

/-- Separates tokens: a blank, or a comment, which goes on until the end of its line. -/
inductive IsSeparator : (text rest : List Char) → Prop where
  | blank {c : Char} {rest : List Char} : c = ' ' ∨ c = '\t' ∨ c = '\r' ∨ c = '\n' →
      IsSeparator [c] rest
  | comment {body rest : List Char} : (∀ c ∈ body, c ≠ '\n') →
      rest = [] ∨ (∃ more, rest = '\n' :: more) → IsSeparator ('/' :: '/' :: body) rest

/-- The step reads the piece `text` from the beginning of `chars`. -/
structure ScanStep.Reads (step : ScanStep) (p : Position) (chars text : List Char) : Prop where
  chars_eq : chars = text ++ step.rest
  ne_nil : text ≠ []
  stop : step.stop = p.through text
  /-- A step without a token reads a separator. -/
  separator : step.kind? = none → IsSeparator text step.rest
  /-- The end of input is not read. -/
  kind_ne : step.kind? ≠ some .endOfInput

namespace ScanStep.Reads

variable {step : ScanStep} {p : Position} {chars text : List Char}

/-- A step that reads a token within a line. -/
theorem of_line {kind : TokenKind} (hkind : step.kind? = some kind) (hend : kind ≠ .endOfInput)
    (hchars : chars = text ++ step.rest) (hne : text ≠ []) (hline : ∀ c ∈ text, c ≠ '\n')
    (hstop : step.stop = p.skip text.length) : step.Reads p chars text where
  chars_eq := hchars
  ne_nil := hne
  stop := by rw [hstop, Position.through_of_line hline]
  separator hnone := by rw [hkind] at hnone; cases hnone
  kind_ne heq := hend (Option.some.inj (hkind.symm.trans heq))

theorem length_lt (h : step.Reads p chars text) : step.rest.length < chars.length := by
  have hpos := List.length_pos_iff.mpr h.ne_nil
  rw [h.chars_eq, List.length_append]
  omega

/-- A step for every character is one for this step and one for every character after it. -/
theorem exists_steps (h : step.Reads p chars text) {steps : Nat} (hsteps : chars.length ≤ steps) :
    ∃ n, steps = n + 1 ∧ step.rest.length ≤ n := by
  have hlt := h.length_lt
  exact ⟨steps - 1, by omega, by omega⟩

end ScanStep.Reads

theorem ne_newline_of_isDigit {c : Char} (h : c.isDigit = true) : c ≠ '\n' := by
  rintro rfl
  exact absurd h (by decide)

theorem ne_newline_of_isNameChar {c : Char} (h : isNameChar c = true) : c ≠ '\n' := by
  rintro rfl
  exact absurd h (by decide +kernel)

theorem scanComparison_reads {p : Position} {c : Char} {alone withEqual : Mark}
    {rest : List Char} (hc : c ≠ '\n') :
    ∃ text, (scanComparison p alone withEqual rest).Reads p (c :: rest) text := by
  fun_cases scanComparison p alone withEqual rest with
  | case1 rest => exact ⟨[c, '='], .of_line rfl (by simp) rfl (by simp) (by simp [hc]) rfl⟩
  | case2 rest _ => exact ⟨[c], .of_line rfl (by simp) rfl (by simp) (by simp [hc]) rfl⟩

theorem kind_scanComparison (p : Position) (alone withEqual : Mark) (rest : List Char) :
    (scanComparison p alone withEqual rest).kind? = some (.mark alone) ∨
      (scanComparison p alone withEqual rest).kind? = some (.mark withEqual) := by
  rw [scanComparison.eq_def]
  split
  · exact .inr rfl
  · exact .inl rfl

/-- The escapes stand within one line. -/
theorem ne_newline_of_unescape? {e c : Char} (h : unescape? e = some c) : e ≠ '\n' := by
  rintro rfl
  cases h

theorem scanString_reads {start p : Position} {chars content : List Char} {step : ScanStep}
    (h : scanString start chars p content = .ok step) :
    ∃ text, chars = text ++ step.rest ∧ step.stop = p.through text ∧
      ∃ value, step.kind? = some (.string value) := by
  fun_induction scanString start chars p content with
  | case1 => cases h
  | case2 => cases h
  | case3 rest p content =>
    cases h
    exact ⟨['"'], rfl, rfl, _, rfl⟩
  | case4 e rest p content c hescape ih =>
    obtain ⟨text, hchars, hstop, hvalue⟩ := ih h
    refine ⟨'\\' :: e :: text, by rw [hchars]; rfl, ?_, hvalue⟩
    rw [hstop, Position.through_cons, Position.through_cons,
      Position.after_of_ne (ne_newline_of_unescape? hescape)]
    rfl
  | case5 => cases h
  | case6 c rest p content _ _ _ ih =>
    obtain ⟨text, hchars, hstop, hvalue⟩ := ih h
    exact ⟨c :: text, by rw [hchars]; rfl, by rw [hstop, Position.through_cons], hvalue⟩

/-- Digits stand within one line. -/
theorem digits_ne_newline {first : Char} (hfirst : first.isDigit = true) (rest : List Char) :
    ∀ c ∈ first :: rest.takeWhile Char.isDigit, c ≠ '\n' := by
  intro c hc
  rcases List.mem_cons.mp hc with rfl | hc
  · exact ne_newline_of_isDigit hfirst
  · exact ne_newline_of_isDigit (List.all_eq_true.mp List.all_takeWhile c hc)

theorem scanNumber_reads {p : Position} {first : Char} {rest : List Char} {step : ScanStep}
    (hfirst : first.isDigit = true) (h : scanNumber p first rest = .ok step) :
    ∃ text, step.Reads p (first :: rest) text := by
  have hwhole := digits_ne_newline hfirst rest
  have hsplit : first :: rest =
      (first :: rest.takeWhile Char.isDigit) ++ rest.dropWhile Char.isDigit := by
    rw [List.cons_append, List.takeWhile_append_dropWhile]
  -- without a point and a digit after it, the number is an integer
  have hinteger : ∀ (n : Nat) (kind : TokenKind) (error : Located ScanError),
      kind ≠ .endOfInput → (if n ≤ maxInteger then
        .ok ⟨some kind, rest.dropWhile Char.isDigit,
          p.skip (first :: rest.takeWhile Char.isDigit).length⟩
        else .error error) = Except.ok step → ∃ text, step.Reads p (first :: rest) text := by
    intro n kind error hkind hstep
    split at hstep
    · cases hstep
      exact ⟨_, .of_line rfl hkind hsplit (by simp) hwhole rfl⟩
    · cases hstep
  rw [scanNumber] at h
  dsimp only at h
  split at h
  · next d more hafter =>
    split at h
    · next hd =>
      cases h
      refine ⟨(first :: rest.takeWhile Char.isDigit) ++ '.' :: d :: more.takeWhile Char.isDigit,
        .of_line rfl (by simp) ?_ (by simp) ?_ ?_⟩
      · rw [hsplit, hafter]
        simp [List.takeWhile_append_dropWhile]
      · intro c hc
        rcases List.mem_append.mp hc with hc | hc
        · exact hwhole c hc
        · rcases List.mem_cons.mp hc with rfl | hc
          · decide
          · exact digits_ne_newline hd more c hc
      · show (p.skip _).skip _ = p.skip _
        rw [Position.skip_skip, List.length_append]
        rfl
    · exact hinteger _ _ _ (by simp) h
  · exact hinteger _ _ _ (by simp) h

theorem scanWord_reads {p : Position} {first : Char} {rest : List Char}
    (hfirst : isNameStart first = true) :
    ∃ text, (scanWord p first rest).Reads p (first :: rest) text := by
  refine ⟨first :: rest.takeWhile isNameChar, .of_line rfl ?_ ?_ (by simp) ?_ rfl⟩
  · rw [TokenKind.ofWord]
    split <;> simp
  · show first :: rest = _ ++ rest.dropWhile isNameChar
    rw [List.cons_append, List.takeWhile_append_dropWhile]
  · intro c hc
    rcases List.mem_cons.mp hc with rfl | hc
    · rintro rfl
      exact absurd hfirst (by decide +kernel)
    · exact ne_newline_of_isNameChar (List.all_eq_true.mp List.all_takeWhile c hc)

/-- A step that reads one blank. -/
theorem ScanStep.Reads.blank {p : Position} {c : Char} {rest : List Char}
    (hc : c = ' ' ∨ c = '\t' ∨ c = '\r' ∨ c = '\n') :
    (ScanStep.mk none rest (p.after c)).Reads p (c :: rest) [c] where
  chars_eq := rfl
  ne_nil := by simp
  stop := rfl
  separator _ := .blank hc
  kind_ne h := by cases h

theorem scanComment_reads (p : Position) (more : List Char) :
    (ScanStep.mk none (more.dropWhile (· ≠ '\n'))
      (p.skip ((more.takeWhile (· ≠ '\n')).length + 2))).Reads p ('/' :: '/' :: more)
      ('/' :: '/' :: more.takeWhile (· ≠ '\n')) := by
  have hbody : ∀ c ∈ more.takeWhile (· ≠ '\n'), c ≠ '\n' := by
    intro c hc
    simpa using List.all_eq_true.mp List.all_takeWhile c hc
  constructor
  case chars_eq =>
    show _ = _ ++ more.dropWhile _
    rw [List.cons_append, List.cons_append, List.takeWhile_append_dropWhile]
  case ne_nil => simp
  case stop =>
    rw [Position.through_of_line, List.length_cons, List.length_cons]
    intro c hc
    rcases List.mem_cons.mp hc with rfl | hc
    · decide
    · rcases List.mem_cons.mp hc with rfl | hc
      · decide
      · exact hbody c hc
  case separator =>
    intro _
    refine .comment hbody ?_
    show more.dropWhile _ = [] ∨ ∃ rest, more.dropWhile _ = '\n' :: rest
    cases hrest : more.dropWhile (· ≠ '\n') with
    | nil => exact .inl rfl
    | cons c rest =>
      -- the comment ends at the first line break
      have hc := List.head?_dropWhile_not (· ≠ '\n') more
      rw [hrest] at hc
      refine .inr ⟨rest, ?_⟩
      simpa using hc
  case kind_ne =>
    intro h
    cases h

theorem ne_newline_of_mark {c : Char} {mark : Mark} (h : Mark.ofChar? c = some mark) :
    c ≠ '\n' := by
  rintro rfl
  cases h

/-- Every step reads a piece of the text. -/
theorem scanStep_reads {p : Position} {c : Char} {rest : List Char} {step : ScanStep}
    (h : scanStep p c rest = .ok step) : ∃ text, step.Reads p (c :: rest) text := by
  rw [scanStep.eq_def] at h
  split at h
  · split at h
    · next more =>
      cases h
      exact ⟨_, scanComment_reads p more⟩
    · cases h
      exact ⟨['/'], .of_line rfl (by simp) rfl (by simp) (by simp) rfl⟩
  · cases h
    exact scanComparison_reads (by decide)
  · cases h
    exact scanComparison_reads (by decide)
  · cases h
    exact scanComparison_reads (by decide)
  · cases h
    exact scanComparison_reads (by decide)
  · cases h
    exact ⟨_, .blank (.inr (.inr (.inr rfl)))⟩
  · cases h
    exact ⟨_, .blank (.inl rfl)⟩
  · cases h
    exact ⟨_, .blank (.inr (.inr (.inl rfl)))⟩
  · cases h
    exact ⟨_, .blank (.inr (.inl rfl))⟩
  · obtain ⟨text, hchars, hstop, value, hkind⟩ := scanString_reads h
    refine ⟨'"' :: text, by rw [hchars]; rfl, by simp, by rw [hstop]; rfl, ?_, ?_⟩
    · intro hnone
      rw [hkind] at hnone
      cases hnone
    · rw [hkind]
      simp
  · split at h
    · next mark hmark =>
      cases h
      exact ⟨[c], .of_line rfl (by simp) rfl (by simp) (by simp [ne_newline_of_mark hmark]) rfl⟩
    · split at h
      · next hdigit => exact scanNumber_reads hdigit h
      · split at h
        · next hname =>
          cases h
          exact scanWord_reads hname
        · cases h

/-! ### Whole texts -/

/-- The tokens of the text `chars` that begins at `p`. -/
inductive Scans : (chars : List Char) → (p : Position) → List Token → Prop where
  | stop {p : Position} : Scans [] p [⟨.endOfInput, "", .single p⟩]
  | skip {c : Char} {rest : List Char} {p : Position} {step : ScanStep} {tokens : List Token} :
      scanStep p c rest = .ok step → step.kind? = none → Scans step.rest step.stop tokens →
      Scans (c :: rest) p tokens
  | token {c : Char} {rest : List Char} {p : Position} {step : ScanStep} {kind : TokenKind}
      {tokens : List Token} :
      scanStep p c rest = .ok step → step.kind? = some kind → Scans step.rest step.stop tokens →
      Scans (c :: rest) p
        (⟨kind, String.ofList ((c :: rest).take (step.stop.offset - p.offset)), p, step.stop⟩ ::
          tokens)

theorem scans_of_scanFrom {steps : Nat} {chars : List Char} {p : Position}
    {found all : Array Token} (hsteps : chars.length ≤ steps)
    (h : scanFrom steps chars p found = .ok all) :
    ∃ tokens, Scans chars p tokens ∧ all.toList = found.toList ++ tokens := by
  induction steps generalizing chars p found with
  | zero =>
    obtain rfl : chars = [] := List.length_eq_zero_iff.mp (by omega)
    cases h
    exact ⟨_, .stop, Array.toList_push⟩
  | succ steps ih =>
    cases chars with
    | nil =>
      cases h
      exact ⟨_, .stop, Array.toList_push⟩
    | cons c rest =>
      rw [scanFrom] at h
      cases hstep : scanStep p c rest with
      | error e =>
        rw [hstep] at h
        cases h
      | ok step =>
        rw [hstep] at h
        obtain ⟨text, hreads⟩ := scanStep_reads hstep
        -- a step reads at least one character, so the remaining steps suffice
        obtain ⟨_, ⟨⟩, hrest⟩ := hreads.exists_steps hsteps
        dsimp only [bind, Except.bind] at h
        split at h
        · next hkind =>
          obtain ⟨tokens, hscans, hall⟩ := ih hrest h
          exact ⟨tokens, .skip hstep hkind hscans, hall⟩
        · next kind hkind =>
          obtain ⟨tokens, hscans, hall⟩ := ih hrest h
          refine ⟨_, .token hstep hkind hscans, ?_⟩
          rw [hall, Array.toList_push, List.append_assoc]
          rfl

theorem Scans.scanFrom {chars : List Char} {p : Position} {tokens : List Token}
    (h : Scans chars p tokens) {steps : Nat} (hsteps : chars.length ≤ steps)
    (found : Array Token) :
    Bytescript.scanFrom steps chars p found = .ok (found ++ tokens.toArray) := by
  induction h generalizing steps found with
  | stop =>
    cases steps with
    | zero => simp [Bytescript.scanFrom]
    | succ steps => simp [Bytescript.scanFrom]
  | @skip c rest p step tokens hstep hkind _ ih =>
    obtain ⟨text, hreads⟩ := scanStep_reads hstep
    obtain ⟨steps, rfl, hrest⟩ := hreads.exists_steps hsteps
    rw [Bytescript.scanFrom, hstep]
    dsimp only [bind, Except.bind]
    rw [hkind]
    exact ih hrest found
  | @token c rest p step kind tokens hstep hkind _ ih =>
    obtain ⟨text, hreads⟩ := scanStep_reads hstep
    obtain ⟨steps, rfl, hrest⟩ := hreads.exists_steps hsteps
    rw [Bytescript.scanFrom, hstep]
    dsimp only [bind, Except.bind]
    rw [hkind]
    dsimp only
    rw [ih hrest]
    simp

/-- The scanner finds the tokens of a text. -/
theorem scan_ok_iff {source : String} {tokens : List Token} :
    scan source = .ok tokens ↔ Scans source.toList {} tokens := by
  have hsteps : source.toList.length ≤ source.length := Nat.le_of_eq String.length_toList
  rw [scan]
  constructor
  · intro h
    cases hall : scanFrom source.length source.toList {} #[] with
    | error e =>
      rw [hall] at h
      cases h
    | ok all =>
      rw [hall] at h
      cases h
      obtain ⟨tokens, hscans, heq⟩ := scans_of_scanFrom hsteps hall
      rwa [heq]
  · intro h
    rw [h.scanFrom hsteps]
    simp [Except.map]

end Bytescript
