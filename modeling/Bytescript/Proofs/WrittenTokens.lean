/-
Tokens that are written one after another are scanned into these tokens.

* `TokenKind.spelling` — the text of a token: its fixed text, the digits of an integer, a name as it
  is, a string in quotes with five characters escaped;
* `Gap` — what may stand between two tokens: blanks and comments, of which the first is a blank;
* `Written` — tokens as a text, any gap between each two of them.

Main statement: `scan_written`. Every token but floats and the end of input can be written, and
nothing is lost: the longest operator is read, keywords are not taken for names, and every string is
read back character for character.

Design notes: as for printed trees (`Spelling`), the text is followed from its end. What stands
behind a token is the end of the text or a gap, and a gap begins with a delimiter because a blank is
part of no name, number or operator.
-/
import Bytescript.Proofs.Spelling

namespace Bytescript

/-! ### Texts of tokens -/

/-- The text of a character of a string between quotes. -/
def escaped : Char → List Char
  | '\n' => ['\\', 'n']
  | '\t' => ['\\', 't']
  | '\r' => ['\\', 'r']
  | '"' => ['\\', '"']
  | '\\' => ['\\', '\\']
  | c => [c]

namespace TokenKind

/-- The text of a token in a source text. -/
def spelling : TokenKind → List Char
  | integer value => (toString value.toInt).toList
  | string value => '"' :: (value.toList.flatMap escaped ++ ['"'])
  | identifier name => name.toList
  | kind => (kind.fixedText?.getD "").toList

/-- Can be written in a source text. Floats are left out; integers have no sign. -/
def IsWritable : TokenKind → Prop
  | integer value => 0 ≤ value.toInt
  | identifier name => IsName name
  | string _ | keyword _ | mark _ => True
  | float _ | endOfInput => False

end TokenKind

theorem quotes_escaped (c : Char) : Quotes c (escaped c) := by
  rw [escaped.eq_def]
  split
  case h_6 hquote hbackslash => exact .inl ⟨rfl, hquote, hbackslash⟩
  all_goals exact .inr ⟨_, rfl, rfl⟩

section

variable {kind : TokenKind} {chars body : List Char} {kinds : List TokenKind} {c : Char}

theorem Delimited.head_ne (h : Delimited chars) (hc : c ∉ delimiters) : chars.head? ≠ some c := by
  intro hhead
  exact hc (h c hhead)

/-- A token before a delimiter is read as that token. -/
theorem writes_spelling (hkind : kind.IsWritable) : Writes kind.spelling [kind] := by
  intro chars kinds hchars h
  cases kind with
  | integer value => exact h.integer hkind hchars
  | float value => exact hkind.elim
  | string value =>
    have hescaped : ∀ c ∈ value.toList, Quotes c (escaped c) := fun c _ => quotes_escaped c
    simpa [TokenKind.spelling] using h.quoted hescaped
  | identifier name => exact h.name hkind hchars
  | keyword word => exact h.keyword word hchars
  | mark m =>
    -- no operator goes on behind a delimiter
    have hequal : chars.head? ≠ some '=' := hchars.head_ne (by decide)
    have hslash : chars.head? ≠ some '/' := hchars.head_ne (by decide)
    exact h.operator m hequal fun _ => hslash
  | endOfInput => exact hkind.elim

/-! ### Between tokens -/

/-- The characters that separate tokens. -/
def blanks : List Char :=
  [' ', '\t', '\r', '\n']

/-- Blanks and comments, each comment with the line break that ends it. -/
inductive Filler : List Char → Prop where
  | nil : Filler []
  | blank {c : Char} {rest : List Char} : c ∈ blanks → Filler rest → Filler (c :: rest)
  | comment {body rest : List Char} : (∀ c ∈ body, c ≠ '\n') → Filler rest →
      Filler ('/' :: '/' :: (body ++ '\n' :: rest))

/-- What separates two tokens: blanks and comments that begin with a blank. -/
inductive Gap : List Char → Prop where
  | mk {c : Char} {rest : List Char} : c ∈ blanks → Filler rest → Gap (c :: rest)

theorem mem_blanks_iff : c ∈ blanks ↔ c = ' ' ∨ c = '\t' ∨ c = '\r' ∨ c = '\n' := by
  simp [blanks]

theorem ScansAs.skip_blank (hc : c ∈ blanks) (h : ScansAs chars kinds) :
    ScansAs (c :: chars) kinds := by
  intro p
  obtain ⟨tokens, hscans, hkinds⟩ := h (p.after c)
  refine ⟨tokens, ?_, hkinds⟩
  rcases mem_blanks_iff.mp hc with rfl | rfl | rfl | rfl <;> exact .skip rfl rfl hscans

theorem ScansAs.skip_comment (hbody : ∀ c ∈ body, c ≠ '\n') (h : ScansAs chars kinds) :
    ScansAs ('/' :: '/' :: (body ++ '\n' :: chars)) kinds := by
  have hline : ScansAs ('\n' :: chars) kinds := h.skip_blank (by decide)
  have hne : ∀ c ∈ body, decide (c ≠ '\n') = true := by simpa using hbody
  have hstop : ∀ c ∈ ('\n' :: chars).head?, decide (c ≠ '\n') = false := by simp
  obtain ⟨htake, hdrop⟩ := takeWhile_append_of_head hne hstop
  intro p
  obtain ⟨tokens, hscans, hkinds⟩ := hline (p.skip (body.length + 2))
  have hstep : scanStep p '/' ('/' :: (body ++ '\n' :: chars)) =
      .ok ⟨none, '\n' :: chars, p.skip (body.length + 2)⟩ := by
    rw [scanStep, htake, hdrop]
  exact ⟨tokens, .skip hstep rfl hscans, hkinds⟩

theorem ScansAs.skip_filler {filler : List Char} (hfiller : Filler filler)
    (h : ScansAs chars kinds) : ScansAs (filler ++ chars) kinds := by
  induction hfiller with
  | nil => exact h
  | blank hc _ ih => exact ih.skip_blank hc
  | comment hbody _ ih =>
    have hcomment := ih.skip_comment hbody
    simpa using hcomment

theorem Gap.delimited {gap : List Char} (hgap : Gap gap) : Delimited (gap ++ chars) := by
  obtain ⟨hc, -⟩ := hgap
  refine delimited_cons ?_
  rcases mem_blanks_iff.mp hc with rfl | rfl | rfl | rfl <;> decide

theorem ScansAs.skip_gap {gap : List Char} (hgap : Gap gap) (h : ScansAs chars kinds) :
    ScansAs (gap ++ chars) kinds := by
  obtain ⟨hc, hfiller⟩ := hgap
  exact (h.skip_filler hfiller).skip_blank hc

end

/-! ### Texts of several tokens -/

/-- The tokens are written as a text, with a gap between each two of them. -/
inductive Written : List TokenKind → List Char → Prop where
  | nil : Written [] []
  | single {kind : TokenKind} : Written [kind] kind.spelling
  | cons {kind next : TokenKind} {rest : List TokenKind} {gap text : List Char} : Gap gap →
      Written (next :: rest) text →
      Written (kind :: next :: rest) (kind.spelling ++ (gap ++ text))

theorem Written.scansAs {kinds : List TokenKind} {text : List Char} (h : Written kinds text)
    (hkinds : ∀ kind ∈ kinds, kind.IsWritable) : ScansAs text (kinds ++ [.endOfInput]) := by
  have hend : Delimited [] := by
    intro c hc
    cases hc
  induction h with
  | nil => exact scansAs_nil
  | @single kind =>
    have hkind := hkinds kind List.mem_cons_self
    simpa using writes_spelling hkind hend scansAs_nil
  | @cons kind next rest gap text hgap _ ih =>
    obtain ⟨hkind, hrest⟩ := List.forall_mem_cons.mp hkinds
    exact writes_spelling hkind hgap.delimited ((ih hrest).skip_gap hgap)

/-- Tokens that are written one after another are scanned into these tokens and the end of
input. -/
theorem scan_written {kinds : List TokenKind} {text : List Char} (h : Written kinds text)
    (hkinds : ∀ kind ∈ kinds, kind.IsWritable) :
    ∃ tokens, scan (String.ofList text) = .ok tokens ∧
      tokens.map Token.kind = kinds ++ [.endOfInput] := by
  obtain ⟨tokens, hscans, htokens⟩ := h.scansAs hkinds {}
  refine ⟨tokens, scan_ok_iff.mpr ?_, htokens⟩
  rwa [String.toList_ofList]

/-- A keyword, a name that begins like one, an operator of two characters behind one of one, an
integer and a string with a line break, a quote and a character without an escape. -/
def mixedTokens : List TokenKind :=
  [.keyword .letWord, .identifier "letter", .mark .bang, .mark .bangEqual,
    .integer (Int64.ofNat maxInteger), .string "a\n\"é"]

/-- These tokens with different gaps, one of them with a comment. -/
def mixedText : String :=
  "let letter ! // not\n\t!=\r\n9223372036854775807 \"a\\n\\\"é\""

theorem scan_written_mixed : Written mixedTokens mixedText.toList ∧
    ∃ tokens, scan mixedText = .ok tokens ∧
      tokens.map Token.kind = mixedTokens ++ [.endOfInput] := by
  have hblank : Gap [' '] := .mk (by decide) .nil
  have hbody : ∀ c ∈ [' ', 'n', 'o', 't'], c ≠ '\n' := by simp
  have hcomment : Gap " // not\n\t".toList :=
    .mk (by decide) (.comment hbody (.blank (by decide) .nil))
  have hlines : Gap ['\r', '\n'] := .mk (by decide) (.blank (by decide) .nil)
  have hwritten : Written mixedTokens mixedText.toList :=
    .cons hblank (.cons hblank (.cons hcomment (.cons hlines (.cons hblank .single))))
  have hwritable : ∀ kind ∈ mixedTokens, kind.IsWritable := by
    simp only [mixedTokens, List.forall_mem_cons, TokenKind.IsWritable]
    exact ⟨trivial, ⟨by decide +kernel, by decide +kernel⟩, trivial, trivial, by decide, trivial,
      by simp⟩
  refine ⟨hwritten, ?_⟩
  have hscan := scan_written hwritten hwritable
  rwa [String.ofList_toList] at hscan

end Bytescript
