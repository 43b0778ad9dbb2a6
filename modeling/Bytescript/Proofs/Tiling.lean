/-
Where tokens stand in the source text.

The tokens of a text follow one another without overlap, each is spelled by the characters between
its two places, and what lies between tokens is blank or part of a comment. Every place agrees with
the text before it: the line counts its line breaks, the column the characters after the last one
(`Position.ofText`). The main statement is `scan_tiles`.

Design notes: `Tiles source base tokens` speaks of the part of the source from `base` on, so that it
can be built from the end of the text to its beginning, one step of the scanner at a time
(`Tiles.skip`, `Tiles.token`).
-/
import Bytescript.Proofs.Scanning

namespace Bytescript

/-- The place after all of a text. -/
def Position.ofText (text : List Char) : Position where
  line := 1 + text.count '\n'
  column := 1 + (text.reverse.takeWhile (· ≠ '\n')).length
  offset := text.length

theorem Position.after_ofText (before : List Char) (c : Char) :
    (ofText before).after c = ofText (before ++ [c]) := by
  rw [after]
  by_cases hc : c = '\n'
  · rw [if_pos hc, hc]
    simp [nextLine, ofText, Nat.add_assoc]
  · rw [if_neg hc]
    simp [next, ofText, hc]
    omega

theorem Position.through_ofText (before text : List Char) :
    (ofText before).through text = ofText (before ++ text) := by
  induction text generalizing before with
  | nil => rw [through_nil, List.append_nil]
  | cons c text ih => rw [through_cons, after_ofText, ih, List.append_assoc, List.singleton_append]

/-- The character at an offset belongs to the token. -/
def Token.Covers (token : Token) (offset : Nat) : Prop :=
  token.span.start.offset ≤ offset ∧ offset < token.span.stop.offset

/-- The part of the source from `start` to `stop` is a comment, which goes on until the end of its
line. -/
structure IsComment (source : List Char) (start stop : Nat) : Prop where
  first : source[start]? = some '/'
  second : source[start + 1]? = some '/'
  lt : start + 1 < stop
  line : ∀ i, start ≤ i → i < stop → source[i]? ≠ some '\n'
  ends : stop = source.length ∨ source[stop]? = some '\n'

/-- The character `c` at an offset is blank, or it stands in a comment behind `base` of which no
token covers anything. -/
inductive Unread (source : List Char) (base : Nat) (tokens : List Token) (offset : Nat) (c : Char) :
    Prop where
  | blank : c = ' ' ∨ c = '\t' ∨ c = '\r' ∨ c = '\n' → Unread source base tokens offset c
  | comment {start stop : Nat} : base ≤ start → start ≤ offset → offset < stop →
      IsComment source start stop →
      (∀ i, start ≤ i → i < stop → ∀ token ∈ tokens, ¬ token.Covers i) →
      Unread source base tokens offset c

/-- The tokens are those of the source from the offset `base` on. -/
structure Tiles (source : List Char) (base : Nat) (tokens : List Token) : Prop where
  base_le : ∀ token ∈ tokens, base ≤ token.span.start.offset
  /-- One token begins after the other ends, and none but the last is empty. -/
  ordered : tokens.Pairwise fun a b =>
    a.span.start.offset < a.span.stop.offset ∧ a.span.stop.offset ≤ b.span.start.offset
  lexeme : ∀ token ∈ tokens, token.lexeme.toList =
    (source.take token.span.stop.offset).drop token.span.start.offset
  /-- What no token covers separates tokens. -/
  between : ∀ offset c, base ≤ offset → source[offset]? = some c →
    (∀ token ∈ tokens, ¬ token.Covers offset) → Unread source base tokens offset c
  /-- The end of input stands at the end, and only there. -/
  ends : ∃ front, tokens = front ++ [⟨.endOfInput, "", .single (.ofText source)⟩] ∧
    ∀ token ∈ front, token.kind ≠ .endOfInput
  start_eq : ∀ token ∈ tokens,
    token.span.start = .ofText (source.take token.span.start.offset)
  stop_eq : ∀ token ∈ tokens, token.span.stop = .ofText (source.take token.span.stop.offset)

namespace Tiles

variable {before text rest : List Char} {tokens : List Token}

/-- At the end of the source. -/
theorem stop (source : List Char) :
    Tiles source source.length [⟨.endOfInput, "", .single (.ofText source)⟩] := by
  have htake : source.take (Position.ofText source).offset = source := List.take_length
  constructor
  case base_le => simp [Span.single, Position.ofText]
  case ordered => simp
  case lexeme => simp [Span.single, Position.ofText]
  case between =>
    intro offset c hbase hc
    rw [List.getElem?_eq_none hbase] at hc
    cases hc
  case ends => exact ⟨[], rfl, by simp⟩
  case start_eq => simp [Span.single, htake]
  case stop_eq => simp [Span.single, htake]

/-- What a separator consists of. -/
theorem blank_or_isComment {c : Char} {offset : Nat} (hsep : IsSeparator text rest)
    (hbefore : before.length ≤ offset) (hoffset : offset < (before ++ text).length)
    (hc : (before ++ text ++ rest)[offset]? = some c) :
    (c = ' ' ∨ c = '\t' ∨ c = '\r' ∨ c = '\n') ∨
      IsComment (before ++ text ++ rest) before.length (before ++ text).length := by
  rw [List.getElem?_append_left hoffset, List.getElem?_append_right hbefore] at hc
  rw [List.length_append] at hoffset
  cases hsep with
  | @blank d rest hd =>
    rw [List.length_singleton] at hoffset
    obtain rfl : offset = before.length := by omega
    rw [Nat.sub_self] at hc
    cases hc
    exact .inl hd
  | @comment body rest hbody hends =>
    refine .inr ⟨by simp, by simp, by simp, ?_, ?_⟩
    · intro i hstart hstop
      rw [List.getElem?_append_left hstop, List.getElem?_append_right hstart]
      intro hi
      rcases List.mem_cons.mp (List.mem_of_getElem? hi) with hslash | hmem
      · cases hslash
      · rcases List.mem_cons.mp hmem with hslash | hmem
        · cases hslash
        · exact hbody '\n' hmem rfl
    · rcases hends with rfl | ⟨more, rfl⟩
      · left
        rw [List.append_nil]
      · right
        rw [List.getElem?_append_right (Nat.le_refl _), Nat.sub_self]
        rfl

/-- A separator before the tokens. -/
theorem skip (h : Tiles (before ++ text ++ rest) (before ++ text).length tokens)
    (hsep : IsSeparator text rest) : Tiles (before ++ text ++ rest) before.length tokens := by
  have hle : before.length ≤ (before ++ text).length := by simp
  constructor
  case base_le =>
    intro token htoken
    exact Nat.le_trans hle (h.base_le token htoken)
  case ordered => exact h.ordered
  case lexeme => exact h.lexeme
  case between =>
    intro offset c hbase hc huncovered
    by_cases hoffset : offset < (before ++ text).length
    · rcases blank_or_isComment hsep hbase hoffset hc with hblank | hcomment
      · exact .blank hblank
      · refine .comment (Nat.le_refl _) hbase hoffset hcomment ?_
        -- the tokens begin behind the comment
        intro i _ hi token htoken hcovers
        have hstart := h.base_le token htoken
        have hcovered := hcovers.1
        omega
    · cases h.between offset c (by omega) hc huncovered with
      | blank hblank => exact .blank hblank
      | comment hstart hlo hhi hcomment hfree =>
        exact .comment (Nat.le_trans hle hstart) hlo hhi hcomment hfree
  case ends => exact h.ends
  case start_eq => exact h.start_eq
  case stop_eq => exact h.stop_eq

/-- One more token before the others. -/
theorem token (h : Tiles (before ++ text ++ rest) (before ++ text).length tokens)
    (hne : text ≠ []) {kind : TokenKind} (hkind : kind ≠ .endOfInput) :
    Tiles (before ++ text ++ rest) before.length
      (⟨kind, String.ofList text, .ofText before, .ofText (before ++ text)⟩ :: tokens) := by
  have hlength : (before ++ text).length = before.length + text.length := List.length_append
  have hpos : 0 < text.length := List.length_pos_iff.mpr hne
  have hbefore : (before ++ text ++ rest).take before.length = before := by
    rw [List.append_assoc, List.take_left]
  have htext : (before ++ text ++ rest).take (before ++ text).length = before ++ text :=
    List.take_left
  constructor
  case base_le =>
    intro token htoken
    rcases List.mem_cons.mp htoken with rfl | htoken
    · exact Nat.le_refl _
    · have hbase := h.base_le token htoken
      omega
  case ordered =>
    refine List.pairwise_cons.mpr ⟨?_, h.ordered⟩
    intro token htoken
    refine ⟨?_, h.base_le token htoken⟩
    show before.length < (before ++ text).length
    omega
  case lexeme =>
    intro token htoken
    rcases List.mem_cons.mp htoken with rfl | htoken
    · show _ = ((before ++ text ++ rest).take (before ++ text).length).drop before.length
      rw [htext, List.drop_left, String.toList_ofList]
    · exact h.lexeme token htoken
  case between =>
    intro offset c hbase hc huncovered
    have hhead := huncovered _ List.mem_cons_self
    have hoffset : (before ++ text).length ≤ offset :=
      Nat.le_of_not_lt fun hlt => hhead ⟨hbase, hlt⟩
    have hrest : ∀ token ∈ tokens, ¬ token.Covers offset :=
      fun token htoken => huncovered token (List.mem_cons_of_mem _ htoken)
    cases h.between offset c hoffset hc hrest with
    | blank hblank => exact .blank hblank
    | comment hstart hlo hhi hcomment hfree =>
      refine .comment (by omega) hlo hhi hcomment ?_
      intro i hi hstop token htoken
      rcases List.mem_cons.mp htoken with rfl | htoken
      · -- the new token ends before the comment begins
        rintro ⟨-, hend⟩
        have hend : i < (before ++ text).length := hend
        omega
      · exact hfree i hi hstop token htoken
  case ends =>
    obtain ⟨front, hfront, hkinds⟩ := h.ends
    refine ⟨_ :: front, by rw [hfront]; rfl, ?_⟩
    intro token htoken
    rcases List.mem_cons.mp htoken with rfl | htoken
    · exact hkind
    · exact hkinds token htoken
  case start_eq =>
    intro token htoken
    rcases List.mem_cons.mp htoken with rfl | htoken
    · show Position.ofText before = .ofText ((before ++ text ++ rest).take before.length)
      rw [hbefore]
    · exact h.start_eq token htoken
  case stop_eq =>
    intro token htoken
    rcases List.mem_cons.mp htoken with rfl | htoken
    · show Position.ofText (before ++ text) = .ofText (List.take (before ++ text).length _)
      rw [htext]
    · exact h.stop_eq token htoken

end Tiles

/-- The tokens of the text that follows `before`. -/
theorem Scans.tiles {chars before : List Char} {p : Position} {tokens : List Token}
    (h : Scans chars p tokens) (hp : p = .ofText before) :
    Tiles (before ++ chars) before.length tokens := by
  induction h generalizing before with
  | stop =>
    subst hp
    rw [List.append_nil]
    exact .stop before
  | skip hstep hkind _ ih =>
    obtain ⟨text, hreads⟩ := scanStep_reads hstep
    have hstop := hreads.stop
    rw [hp, Position.through_ofText] at hstop
    rw [hreads.chars_eq, ← List.append_assoc]
    exact (ih hstop).skip (hreads.separator hkind)
  | @token c rest p step kind tokens hstep hkind _ ih =>
    obtain ⟨text, hreads⟩ := scanStep_reads hstep
    have hstop := hreads.stop
    rw [hp, Position.through_ofText] at hstop
    have htiles := (ih hstop).token hreads.ne_nil fun hend => hreads.kind_ne (hend ▸ hkind)
    have hlexeme : (c :: rest).take (step.stop.offset - p.offset) = text := by
      rw [hreads.chars_eq, hreads.stop, Position.offset_through, Nat.add_sub_cancel_left,
        List.take_left]
    rw [hlexeme, hstop, hp, hreads.chars_eq, ← List.append_assoc]
    exact htiles

/-- The tokens of every text that can be scanned tile it, with the right places. -/
theorem scan_tiles {source : String} {tokens : List Token} (h : scan source = .ok tokens) :
    Tiles source.toList 0 tokens := by
  have hscans := scan_ok_iff.mp h
  have hstart : ({} : Position) = .ofText [] := rfl
  exact hscans.tiles hstart

/-- A string that spans two lines, and a comment behind it. -/
def multilineSource : String := "let s = \"a\nb\"; // twice\ns"

def multilineTokens : List Token :=
  [⟨.keyword .letWord, "let", ⟨1, 1, 0⟩, ⟨1, 4, 3⟩⟩,
    ⟨.identifier "s", "s", ⟨1, 5, 4⟩, ⟨1, 6, 5⟩⟩,
    ⟨.mark .equal, "=", ⟨1, 7, 6⟩, ⟨1, 8, 7⟩⟩,
    ⟨.string "a\nb", "\"a\nb\"", ⟨1, 9, 8⟩, ⟨2, 3, 13⟩⟩,
    ⟨.mark .semicolon, ";", ⟨2, 3, 13⟩, ⟨2, 4, 14⟩⟩,
    ⟨.identifier "s", "s", ⟨3, 1, 24⟩, ⟨3, 2, 25⟩⟩,
    ⟨.endOfInput, "", ⟨3, 2, 25⟩, ⟨3, 2, 25⟩⟩]

theorem scan_tiles_multiline : scan multilineSource = .ok multilineTokens ∧
    Tiles multilineSource.toList 0 multilineTokens := by
  have hscan : scan multilineSource = .ok multilineTokens := rfl
  exact ⟨hscan, scan_tiles hscan⟩

end Bytescript
