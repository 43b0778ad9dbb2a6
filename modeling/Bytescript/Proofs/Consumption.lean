/-
Parsing ends, inside the tokens, at the end of input.

Main statement: where the last token, and no other, is the end of input, the parser comes to an end
without a look-up outside the tokens, each statement and each expression takes at least one of them,
and a program is read up to the end of input (`parse_consumes`).

Design notes: a cursor carries the tokens that are left, so it cannot show a look-up outside of
them. `Indexed` does: there the same parser carries an index into all tokens and looks up each token
that it needs, with nothing checked before. `Indexed.Follows` compares a reader `y` that takes
tokens by their index with a reader `x` that has the same fuel or less. What `x` gives, `y` gives
too, and `x` is out of fuel only if it did not get enough. From that all fuel that is enough is
known to have the same outcome. How much is enough grows with the number of tokens that are left: a
few calls can follow one another before a token is read, never sixteen. The bounds are written
without subtraction, as `16 * tokens.length + k ≤ fuel + 16 * i` at the index `i`.
-/
import Bytescript.Proofs.Readers
import Bytescript.Proofs.Tiling

namespace Bytescript

variable {α β : Type} {tokens : List Token} {i lo extra : Nat} {cursor : TokenCursor}
  {enough : Prop}

/-! ### Tokens by their index -/

/-- Why a reader stops without a result. -/
inductive IndexStop where
  | error (error : Located ParseError)
  /-- There is no token at the index. -/
  | outOfRange
  deriving DecidableEq, Repr

/-- Readers that take the tokens they are given by their index. The index is kept when a reader
fails, so that one can also say where it stopped. -/
abbrev Indexed := ReaderT (List Token) (ExceptT IndexStop (StateM Nat))

namespace Indexed

/-- The outcome of a reader that begins at an index, and the index where it stops. -/
def startAt (y : Indexed α) (tokens : List Token) (i : Nat) : Except IndexStop α × Nat :=
  (y.run tokens).run.run i

/-- The token at an index. -/
def tokenAt (i : Nat) : Indexed Token := do
  match (← read)[i]? with
  | some token => return token
  | none => throw .outOfRange

/-- The next token. -/
def current : Indexed Token := do
  tokenAt (← get)

/-- The last token read; at the beginning, the first one. -/
def previous : Indexed Token := do
  tokenAt ((← get) - 1)

end Indexed

instance : TokenReader Indexed where
  peek := return (← Indexed.current).kind
  -- the end of input is not passed, and the span is that of the token before
  skip := do
    unless (← Indexed.current).isEnd do modify (· + 1)
    return (← Indexed.previous).span
  lastSpan := return (← Indexed.previous).span
  -- there need not be a token after the next one
  atAssignment := return ((← read)[(← get) + 1]?).any fun token => token.kind = .mark .equal
  fail error := do throw (.error ⟨error, (← Indexed.current).span⟩)
  failAt error span := throw (.error ⟨error, span⟩)

/-! ### Tokens with one end of input -/

/-- The last token is the end of input, and no other one is. -/
def EndsOnce (tokens : List Token) : Prop :=
  ∃ front last, tokens = front ++ [last] ∧ last.kind = .endOfInput ∧
    ∀ token ∈ front, token.kind ≠ .endOfInput

namespace EndsOnce

theorem of_scan {source : String} (h : scan source = .ok tokens) : EndsOnce tokens := by
  have hstart : ({} : Position) = .ofText [] := rfl
  have htiles : Tiles source.toList 0 tokens := (scan_ok_iff.mp h).tiles hstart
  obtain ⟨front, hfront, hkinds⟩ := htiles.ends
  exact ⟨front, _, hfront, rfl, hkinds⟩

theorem length_pos (h : EndsOnce tokens) : 0 < tokens.length := by
  obtain ⟨front, last, rfl, -⟩ := h
  rw [List.length_append]
  exact Nat.succ_pos _

/-- Only at the last index is the end of input. -/
theorem kind_eq_iff (h : EndsOnce tokens) {token : Token} (htoken : tokens[i]? = some token) :
    token.kind = .endOfInput ↔ i + 1 = tokens.length := by
  obtain ⟨front, last, rfl, hlast, hfront⟩ := h
  have hlt := (List.getElem?_eq_some_iff.mp htoken).1
  rw [List.length_append, List.length_singleton] at hlt ⊢
  rcases Nat.lt_or_ge i front.length with hi | hi
  · rw [List.getElem?_append_left hi] at htoken
    exact iff_of_false (hfront token (List.mem_of_getElem? htoken)) (by omega)
  · obtain rfl : i = front.length := by omega
    rw [List.getElem?_concat_length] at htoken
    cases htoken
    exact iff_of_true hlast rfl

theorem drop (h : EndsOnce tokens) (hi : i < tokens.length) : EndsOnce (tokens.drop i) := by
  obtain ⟨front, last, rfl, hlast, hfront⟩ := h
  rw [List.length_append, List.length_singleton] at hi
  rw [List.drop_append_of_le_length (by omega)]
  exact ⟨front.drop i, last, rfl, hlast,
    fun token htoken => hfront token (List.mem_of_mem_drop htoken)⟩

end EndsOnce

/-! ### Cursors at an index -/

/-- The cursor stands at the index `i` of tokens with one end of input. -/
structure TokenCursor.At (tokens : List Token) (i : Nat) (cursor : TokenCursor) : Prop where
  ends : EndsOnce tokens
  lt : i < tokens.length
  rest : cursor.rest = tokens.drop i
  last : ∀ token, 0 < i → tokens[i - 1]? = some token → cursor.last = token.span

namespace TokenCursor

theorem at_zero (h : EndsOnce tokens) (last : Span) : (TokenCursor.mk tokens last).At tokens 0 :=
  ⟨h, h.length_pos, rfl, fun _ hpos => absurd hpos (Nat.lt_irrefl 0)⟩

theorem exists_at (h : EndsOnce tokens) (hi : i < tokens.length) :
    ∃ cursor : TokenCursor, cursor.At tokens i := by
  have hlt : i - 1 < tokens.length := by omega
  refine ⟨⟨tokens.drop i, tokens[i - 1].span⟩, h, hi, rfl, ?_⟩
  intro token _ htoken
  rw [List.getElem?_eq_getElem hlt] at htoken
  rw [Option.some.inj htoken]

theorem kind_advance_of_atAssignment (h : cursor.atAssignment = true) :
    cursor.advance.kind = .mark .equal := by
  unfold atAssignment at h
  split at h
  · next hrest =>
    rw [advance, hrest]
    rfl
  · cases h

namespace At

theorem exists_token (h : cursor.At tokens i) : ∃ token, tokens[i]? = some token ∧
    cursor.rest = token :: tokens.drop (i + 1) ∧ cursor.kind = token.kind ∧
      cursor.span = token.span := by
  have hlt := h.lt
  have hrest : cursor.rest = tokens[i] :: tokens.drop (i + 1) := by
    rw [h.rest, List.drop_eq_getElem_cons hlt]
  refine ⟨tokens[i], List.getElem?_eq_getElem hlt, hrest, ?_, ?_⟩
  · rw [TokenCursor.kind, hrest]
  · rw [TokenCursor.span, hrest]

theorem kind_eq_iff (h : cursor.At tokens i) :
    cursor.kind = .endOfInput ↔ i + 1 = tokens.length := by
  obtain ⟨token, htoken, -, hkind, -⟩ := h.exists_token
  rw [hkind]
  exact h.ends.kind_eq_iff htoken

theorem advance (h : cursor.At tokens i) (hkind : cursor.kind ≠ .endOfInput) :
    cursor.advance.At tokens (i + 1) := by
  obtain ⟨token, htoken, hrest, -⟩ := h.exists_token
  obtain ⟨next, rest, hcons, -, -, hadvance⟩ := exists_cons hkind
  obtain ⟨rfl, rfl⟩ := List.cons.inj (hcons.symm.trans hrest)
  have hne : i + 1 ≠ tokens.length := fun hlast => hkind (h.kind_eq_iff.mpr hlast)
  rw [hadvance]
  refine ⟨h.ends, Nat.lt_of_le_of_ne h.lt hne, rfl, ?_⟩
  intro token _ htoken'
  rw [Nat.add_sub_cancel, htoken] at htoken'
  rw [Option.some.inj htoken']

theorem atAssignment_eq (h : cursor.At tokens i) {name : String}
    (hkind : cursor.kind = .identifier name) :
    cursor.atAssignment = (tokens[i + 1]?).any fun token => token.kind = .mark .equal := by
  obtain ⟨⟨kind, lexeme, span⟩, -, hrest, hkind', -⟩ := h.exists_token
  obtain rfl : kind = .identifier name := hkind'.symm.trans hkind
  rw [TokenCursor.atAssignment, hrest, ← List.head?_drop]
  cases tokens.drop (i + 1) with
  | nil => rfl
  | cons next rest =>
    obtain ⟨kind, lexeme, span⟩ := next
    cases kind with
    | mark m => cases m <;> rfl
    | _ => rfl

/-- Between two indices there are tokens, and the end of input is still to come. -/
theorem consumed {cursor' : TokenCursor} {i' : Nat} (h : cursor.At tokens i)
    (h' : cursor'.At tokens i') (hlt : i < i') :
    ∃ used, used ≠ [] ∧ cursor.rest = used ++ cursor'.rest ∧ EndsOnce cursor'.rest := by
  have hdrop : tokens.drop i' = (tokens.drop i).drop (i' - i) := by
    rw [List.drop_drop, Nat.add_sub_cancel' (Nat.le_of_lt hlt)]
  have hrest : cursor.rest = (tokens.drop i).take (i' - i) ++ cursor'.rest := by
    rw [h.rest, h'.rest, hdrop, List.take_append_drop]
  refine ⟨_, ?_, hrest, h'.rest ▸ h'.ends.drop h'.lt⟩
  intro hnil
  have hlength := congrArg List.length hrest
  rw [hnil, List.nil_append, h.rest, h'.rest, List.length_drop, List.length_drop] at hlength
  have := h'.lt
  omega

end At

end TokenCursor

namespace Indexed

open Parse

/-! ### Two readers side by side -/

/-- What the reader `x` gives from the cursor on, the reader `y` gives from the index `i` on: an
error, or a result, and then the new cursor is at the new index, which is at least `lo`. The
reader `x` runs out of fuel only if it has not enough. -/
structure Follows (tokens : List Token) (y : Indexed α) (x : Parse α) (enough : Prop) (lo i : Nat)
    (cursor : TokenCursor) : Prop where
  ok : ∀ a cursor', x.run cursor = .ok (a, cursor') →
    ∃ i', y.startAt tokens i = (.ok a, i') ∧ cursor'.At tokens i' ∧ lo ≤ i'
  error : ∀ e, x.run cursor = .error e → e.value = .outOfFuel ∧ ¬ enough ∨
    e.value ≠ .outOfFuel ∧ ∃ i', y.startAt tokens i = (.error (.error e), i') ∧ i' < tokens.length

section

variable {x : Parse α} {y : Indexed α} {f : α → Parse β} {g : α → Indexed β}

theorem follows_pure {a : α} (h : cursor.At tokens i) (hlo : lo ≤ i) :
    Follows tokens (pure a) (pure a) enough lo i cursor := by
  constructor
  · intro a' cursor' hrun
    cases hrun
    exact ⟨i, rfl, h, hlo⟩
  · intro e hrun
    cases hrun

theorem follows_outOfFuel (h : ¬ enough) :
    Follows tokens y (fail .outOfFuel) enough lo i cursor := by
  constructor
  · intro a cursor' hrun
    cases hrun
  · intro e hrun
    cases hrun
    exact .inl ⟨rfl, h⟩

theorem follows_failAt {error : ParseError} {span : Span} (h : cursor.At tokens i)
    (herror : error ≠ .outOfFuel) :
    Follows tokens (failAt error span) (failAt error span : Parse α) enough lo i cursor := by
  constructor
  · intro a cursor' hrun
    cases hrun
  · intro e hrun
    cases hrun
    exact .inr ⟨herror, i, rfl, h.lt⟩

theorem startAt_bind_of_ok {a : α} {i' : Nat} (h : y.startAt tokens i = (.ok a, i')) :
    (y >>= g).startAt tokens i = (g a).startAt tokens i' := by
  rw [startAt] at h
  rw [startAt, ReaderT.run_bind, ExceptT.run_bind, StateT.run_bind, h]
  rfl

theorem startAt_bind_of_error {stop : IndexStop} {i' : Nat}
    (h : y.startAt tokens i = (.error stop, i')) :
    (y >>= g).startAt tokens i = (.error stop, i') := by
  rw [startAt] at h
  rw [startAt, ReaderT.run_bind, ExceptT.run_bind, StateT.run_bind, h]
  rfl

theorem Follows.bind {lo' : Nat} (hx : Follows tokens y x enough lo' i cursor)
    (hf : ∀ a i' cursor', cursor'.At tokens i' → lo' ≤ i' →
      Follows tokens (g a) (f a) enough lo i' cursor') :
    Follows tokens (y >>= g) (x >>= f) enough lo i cursor := by
  cases hfirst : x.run cursor with
  | error e =>
    have hrun : (x >>= f).run cursor = .error e := by
      rw [StateT.run_bind, hfirst]
      rfl
    constructor
    · intro b cursor' h
      rw [hrun] at h
      cases h
    · intro e' h
      rw [hrun] at h
      cases h
      exact (hx.error e hfirst).imp_right fun ⟨hne, i', hstart, hlt⟩ =>
        ⟨hne, i', startAt_bind_of_error hstart, hlt⟩
  | ok result =>
    obtain ⟨i', hstart, hat, hlo⟩ := hx.ok result.1 result.2 hfirst
    have hrun : (x >>= f).run cursor = (f result.1).run result.2 := by
      rw [StateT.run_bind, hfirst]
      rfl
    have hnext : (y >>= g).startAt tokens i = (g result.1).startAt tokens i' :=
      startAt_bind_of_ok hstart
    have hsecond := hf result.1 i' result.2 hat hlo
    exact ⟨hrun ▸ hnext ▸ hsecond.ok, hrun ▸ hnext ▸ hsecond.error⟩

theorem Follows.mono {enough' : Prop} {lo' : Nat} (hx : Follows tokens y x enough' lo' i cursor)
    (henough : enough → enough') (hlo : lo ≤ lo') : Follows tokens y x enough lo i cursor := by
  constructor
  · intro a cursor' hrun
    obtain ⟨i', hstart, hat, hle⟩ := hx.ok a cursor' hrun
    exact ⟨i', hstart, hat, Nat.le_trans hlo hle⟩
  · intro e hrun
    exact (hx.error e hrun).imp_left fun ⟨he, hnot⟩ => ⟨he, fun h => hnot (henough h)⟩

theorem Follows.call {enough' : Prop} {lo' : Nat} (hx : Follows tokens y x enough' lo' i cursor)
    (henough : enough → enough') (hf : ∀ a i' cursor', cursor'.At tokens i' → lo' ≤ i' →
      Follows tokens (g a) (f a) enough lo i' cursor') :
    Follows tokens (y >>= g) (x >>= f) enough lo i cursor :=
  (hx.mono henough (Nat.le_refl _)).bind hf

/-- A first action of which the outcome is known. -/
theorem Follows.after {i' : Nat} {cursor' : TokenCursor} {a : α} {x z : Parse β}
    (h : Follows tokens (g a) x enough lo i' cursor') (hy : y.startAt tokens i = (.ok a, i'))
    (hz : z.run cursor = x.run cursor') : Follows tokens (y >>= g) z enough lo i cursor := by
  have hnext : (y >>= g).startAt tokens i = (g a).startAt tokens i' := startAt_bind_of_ok hy
  exact ⟨hz ▸ hnext ▸ h.ok, hz ▸ hnext ▸ h.error⟩

/-! ### Primitive readers -/

theorem startAt_tokenAt {j : Nat} {token : Token} (h : tokens[j]? = some token) :
    (tokenAt j).startAt tokens i = (.ok token, i) := by
  have hread : (read : Indexed (List Token)).startAt tokens i = (.ok tokens, i) := rfl
  rw [tokenAt, startAt_bind_of_ok hread, h]
  rfl

theorem startAt_current {token : Token} (h : tokens[i]? = some token) :
    current.startAt tokens i = (.ok token, i) :=
  (startAt_bind_of_ok rfl).trans (startAt_tokenAt h)

theorem startAt_previous {token : Token} (h : tokens[i - 1]? = some token) :
    previous.startAt tokens i = (.ok token, i) :=
  (startAt_bind_of_ok rfl).trans (startAt_tokenAt h)

theorem startAt_peek (h : cursor.At tokens i) :
    (peek : Indexed TokenKind).startAt tokens i = (.ok cursor.kind, i) := by
  obtain ⟨token, htoken, -, hkind, -⟩ := h.exists_token
  rw [hkind]
  exact startAt_bind_of_ok (startAt_current htoken)

theorem startAt_skip (h : cursor.At tokens i) (hkind : cursor.kind ≠ .endOfInput) :
    (skip : Indexed Span).startAt tokens i = (.ok cursor.span, i + 1) := by
  obtain ⟨token, htoken, -, hkind', hspan⟩ := h.exists_token
  have hend : token.isEnd = false := decide_eq_false (hkind' ▸ hkind)
  have hmodify : (modify (· + 1) : Indexed PUnit).startAt tokens i = (.ok ⟨⟩, i + 1) := rfl
  refine (startAt_bind_of_ok (startAt_current htoken)).trans ?_
  rw [hend, hspan]
  exact (startAt_bind_of_ok hmodify).trans (startAt_bind_of_ok (startAt_previous htoken))

theorem startAt_lastSpan (h : cursor.At tokens i) (hi : 0 < i) :
    (lastSpan : Indexed Span).startAt tokens i = (.ok cursor.last, i) := by
  have hlt : i - 1 < tokens.length := by
    have := h.lt
    omega
  have htoken : tokens[i - 1]? = some tokens[i - 1] := List.getElem?_eq_getElem hlt
  rw [h.last _ hi htoken]
  exact startAt_bind_of_ok (startAt_previous htoken)

theorem follows_peek {f : TokenKind → Parse β} {g : TokenKind → Indexed β}
    (h : cursor.At tokens i)
    (hf : Follows tokens (g cursor.kind) (f cursor.kind) enough lo i cursor) :
    Follows tokens (peek >>= g) (peek >>= f) enough lo i cursor :=
  hf.after (startAt_peek h) rfl

theorem follows_skip {f : Span → Parse β} {g : Span → Indexed β} (h : cursor.At tokens i)
    (hkind : cursor.kind ≠ .endOfInput)
    (hf : cursor.advance.At tokens (i + 1) →
      Follows tokens (g cursor.span) (f cursor.span) enough lo (i + 1) cursor.advance) :
    Follows tokens (skip >>= g) (skip >>= f) enough lo i cursor :=
  (hf (h.advance hkind)).after (startAt_skip h hkind) rfl

theorem follows_lastSpan {f : Span → Parse β} {g : Span → Indexed β} (h : cursor.At tokens i)
    (hi : 0 < i) (hf : Follows tokens (g cursor.last) (f cursor.last) enough lo i cursor) :
    Follows tokens (lastSpan >>= g) (lastSpan >>= f) enough lo i cursor :=
  hf.after (startAt_lastSpan h hi) rfl

theorem follows_fail {error : ParseError} (h : cursor.At tokens i) (herror : error ≠ .outOfFuel) :
    Follows tokens (fail error) (fail error : Parse α) enough lo i cursor := by
  obtain ⟨token, htoken, -, -, hspan⟩ := h.exists_token
  constructor
  · intro a cursor' hrun
    cases hrun
  · intro e hrun
    cases hrun
    refine .inr ⟨herror, i, ?_, h.lt⟩
    rw [hspan]
    exact startAt_bind_of_ok (startAt_current htoken)

theorem follows_atAssignment {x x' : Parse β} {y y' : Indexed β} {name : String}
    (h : cursor.At tokens i) (hkind : cursor.kind = .identifier name)
    (hx : cursor.advance.kind = .mark .equal → Follows tokens y x enough lo i cursor)
    (hx' : Follows tokens y' x' enough lo i cursor) :
    Follows tokens (atAssignment >>= fun found => if found then y else y')
      (atAssignment >>= fun found => if found then x else x') enough lo i cursor := by
  have hstart : (atAssignment : Indexed Bool).startAt tokens i = (.ok cursor.atAssignment, i) := by
    rw [h.atAssignment_eq hkind]
    rfl
  refine Follows.after (x := if cursor.atAssignment then x else x') ?_ hstart rfl
  split
  · next hassignment => exact hx (TokenCursor.kind_advance_of_atAssignment hassignment)
  · exact hx'

theorem follows_accept {kind : TokenKind} (h : cursor.At tokens i) (hkind : kind ≠ .endOfInput) :
    Follows tokens (accept kind) (accept kind) enough i i cursor := by
  refine follows_peek h ?_
  split
  · next heq =>
    rw [discard_bind, discard_bind]
    exact follows_skip h (heq ▸ hkind) fun h' => follows_pure h' (Nat.le_succ i)
  · exact follows_pure h (Nat.le_refl i)

theorem follows_expect {kind : TokenKind} {what : Expectation} (h : cursor.At tokens i)
    (hkind : kind ≠ .endOfInput) :
    Follows tokens (expect kind what) (expect kind what) enough (i + 1) i cursor := by
  refine follows_peek h ?_
  split
  · next heq =>
    rw [← bind_pure (skip : Indexed Span), ← bind_pure (skip : Parse Span)]
    exact follows_skip h (heq ▸ hkind) fun h' => follows_pure h' (Nat.le_refl _)
  · exact follows_fail h (by simp)

theorem follows_expectName {what : Expectation} (h : cursor.At tokens i) :
    Follows tokens (expectName what) (expectName what) enough (i + 1) i cursor := by
  refine follows_peek h ?_
  cases hkind : cursor.kind with
  | identifier name =>
    exact follows_skip h (by simp [hkind]) fun h' => follows_pure h' (Nat.le_refl _)
  | _ => exact follows_fail h (by simp)

/-! ### The functions of the parser -/

/-- Fuel that is enough at the index `i` for a function that makes at most `k` calls, one inside the
other, before one of them reads a token or ends. -/
abbrev Enough (tokens : List Token) (i k fuel : Nat) : Prop :=
  16 * tokens.length + k ≤ fuel + 16 * i

theorem follows_params : ∀ (fuel : Nat) (found : Array Param) (i : Nat) (cursor : TokenCursor),
    cursor.At tokens i →
    Follows tokens (params (extra + fuel) found) (params fuel found)
      (Enough tokens i 0 fuel) (i + 1) i cursor
  | 0, _, i, _, h => follows_outOfFuel (by have := h.lt; omega)
  | fuel + 1, found, i, cursor, h => by
    rw [← Nat.add_assoc, params, params]
    refine (follows_expectName h).bind fun name i₁ c₁ h₁ hi₁ => ?_
    refine (follows_accept h₁ (by simp)).bind fun more i₂ c₂ h₂ hi₂ => ?_
    split
    · exact (follows_params fuel _ i₂ c₂ h₂).mono (by omega) (by omega)
    · rw [discard_bind, discard_bind]
      refine (follows_expect h₂ (by simp)).bind fun _ i₃ c₃ h₃ hi₃ => ?_
      exact follows_pure h₃ (by omega)

mutual

theorem follows_expr : ∀ (fuel : Nat) (precedence : Precedence) (i : Nat) (cursor : TokenCursor),
    cursor.At tokens i →
    Follows tokens (expr (extra + fuel) precedence) (expr fuel precedence)
      (Enough tokens i 1 fuel) (i + 1) i cursor
  | 0, _, _, _, h => follows_outOfFuel (by have := h.lt; omega)
  | fuel + 1, precedence, i, cursor, h => by
    rw [← Nat.add_assoc, expr, expr]
    refine (follows_operand fuel i cursor h).call (by omega) fun left i₁ c₁ h₁ hi₁ => ?_
    exact (follows_continued fuel precedence left i₁ c₁ h₁ (by omega)).mono (by omega)
      (by omega)
  termination_by structural fuel => fuel

theorem follows_continued : ∀ (fuel : Nat) (precedence : Precedence) (left : Expr) (i : Nat)
    (cursor : TokenCursor), cursor.At tokens i → 0 < i →
    Follows tokens (continued (extra + fuel) precedence left)
      (continued fuel precedence left)
      (Enough tokens i 0 fuel) i i cursor
  | 0, _, _, _, _, h, _ => follows_outOfFuel (by have := h.lt; omega)
  | fuel + 1, precedence, left, i, cursor, h, hi => by
    rw [← Nat.add_assoc, continued, continued]
    refine follows_peek h ?_
    cases hkind : Continuation.ofToken? cursor.kind with
    | none => exact follows_pure h (Nat.le_refl _)
    | some continuation =>
      have hne : cursor.kind ≠ .endOfInput := by
        intro hend
        rw [hend] at hkind
        cases hkind
      dsimp only
      split
      · rw [discard_bind, discard_bind]
        refine follows_skip h hne fun h₁ => ?_
        cases continuation with
        | call =>
          refine (follows_list fuel .rightParen (i + 1) _ h₁).call (by omega)
            fun args i₂ c₂ h₂ hi₂ => ?_
          refine follows_lastSpan h₂ (by omega) ?_
          exact (follows_continued fuel precedence _ i₂ c₂ h₂ (by omega)).mono (by omega)
            (by omega)
        | index =>
          refine (follows_expr fuel .lowest (i + 1) _ h₁).call (by omega)
            fun index i₂ c₂ h₂ hi₂ => ?_
          refine (follows_expect h₂ (by simp)).bind fun close i₃ c₃ h₃ hi₃ => ?_
          exact (follows_continued fuel precedence _ i₃ c₃ h₃ (by omega)).mono (by omega)
            (by omega)
        | operator op =>
          refine (follows_expr fuel op.precedence (i + 1) _ h₁).call (by omega)
            fun right i₂ c₂ h₂ hi₂ => ?_
          exact (follows_continued fuel precedence _ i₂ c₂ h₂ (by omega)).mono (by omega)
            (by omega)
      · exact follows_pure h (Nat.le_refl _)
  termination_by structural fuel => fuel

theorem follows_operand : ∀ (fuel i : Nat) (cursor : TokenCursor), cursor.At tokens i →
    Follows tokens (operand (extra + fuel)) (operand fuel)
      (Enough tokens i 0 fuel) (i + 1) i cursor
  | 0, _, _, h => follows_outOfFuel (by have := h.lt; omega)
  | fuel + 1, i, cursor, h => by
    -- applying the rule unfolds both readers
    refine follows_peek h ?_
    by_cases hend : cursor.kind = .endOfInput
    · rw [if_pos hend, if_pos hend]
      exact follows_fail h (by simp)
    · rw [if_neg hend, if_neg hend]
      refine follows_skip h hend fun h₁ => ?_
      have hleaf : ∀ e : Expr, Follows tokens (pure e) (pure e)
          (Enough tokens i 0 (fuel + 1)) (i + 1) (i + 1) cursor.advance :=
        fun e => follows_pure h₁ (Nat.le_refl _)
      have hfail : ∀ kind, Follows tokens
          (failAt (.expectedExpression kind) cursor.span)
          (failAt (.expectedExpression kind) cursor.span : Parse Expr)
          (Enough tokens i 0 (fuel + 1)) (i + 1) (i + 1) cursor.advance :=
        fun kind => follows_failAt h₁ (by simp)
      cases hkind : cursor.kind with
      | identifier | integer | float | string => exact hleaf _
      | keyword word =>
        cases word with
        | trueWord | falseWord | nullWord => exact hleaf _
        | ifWord =>
          exact (follows_conditional fuel cursor.span (i + 1) _ h₁).mono (by omega) (by omega)
        | fnWord =>
          exact (follows_function fuel cursor.span (i + 1) _ h₁).mono (by omega) (by omega)
        | _ => exact hfail _
      | mark m =>
        cases m with
        | bang =>
          exact (follows_unary fuel .not cursor.span (i + 1) _ h₁).mono (by omega) (by omega)
        | minus =>
          exact (follows_unary fuel .negate cursor.span (i + 1) _ h₁).mono (by omega) (by omega)
        | leftParen =>
          refine (follows_expr fuel .lowest (i + 1) _ h₁).call (by omega)
            fun inner i₂ c₂ h₂ hi₂ => ?_
          rw [discard_bind, discard_bind]
          refine (follows_expect h₂ (by simp)).bind fun _ i₃ c₃ h₃ hi₃ => ?_
          exact follows_pure h₃ (by omega)
        | leftBracket =>
          refine (follows_list fuel .rightBracket (i + 1) _ h₁).call (by omega)
            fun elements i₂ c₂ h₂ hi₂ => ?_
          exact follows_lastSpan h₂ (by omega) (follows_pure h₂ (by omega))
        | leftBrace =>
          refine (follows_entries fuel #[] (i + 1) _ h₁).call (by omega)
            fun pairs i₂ c₂ h₂ hi₂ => ?_
          refine (follows_expect h₂ (by simp)).bind fun close i₃ c₃ h₃ hi₃ => ?_
          exact follows_pure h₃ (by omega)
        | _ => exact hfail _
      | endOfInput => exact hfail _
  termination_by structural fuel => fuel

theorem follows_unary : ∀ (fuel : Nat) (op : UnaryOp) (start : Span) (i : Nat)
    (cursor : TokenCursor), cursor.At tokens i →
    Follows tokens (unary (extra + fuel) op start) (unary fuel op start)
      (Enough tokens i 2 fuel) (i + 1) i cursor
  | 0, _, _, _, _, h => follows_outOfFuel (by have := h.lt; omega)
  | fuel + 1, op, start, i, cursor, h => by
    rw [← Nat.add_assoc, unary, unary]
    refine (follows_expr fuel .unary i cursor h).call (by omega) fun inner i₁ c₁ h₁ hi₁ => ?_
    exact follows_pure h₁ hi₁
  termination_by structural fuel => fuel

theorem follows_conditional : ∀ (fuel : Nat) (start : Span) (i : Nat) (cursor : TokenCursor),
    cursor.At tokens i →
    Follows tokens (conditional (extra + fuel) start) (conditional fuel start)
      (Enough tokens i 0 fuel) (i + 1) i cursor
  | 0, _, _, _, h => follows_outOfFuel (by have := h.lt; omega)
  | fuel + 1, start, i, cursor, h => by
    rw [← Nat.add_assoc, conditional, conditional, discard_bind, discard_bind]
    refine (follows_expect h (by simp)).bind fun _ i₁ c₁ h₁ hi₁ => ?_
    refine (follows_expr fuel .lowest i₁ c₁ h₁).call (by omega) fun condition i₂ c₂ h₂ hi₂ => ?_
    rw [discard_bind, discard_bind]
    refine (follows_expect h₂ (by simp)).bind fun _ i₃ c₃ h₃ hi₃ => ?_
    refine (follows_block fuel i₃ c₃ h₃).call (by omega) fun thenBranch i₄ c₄ h₄ hi₄ => ?_
    refine (follows_alternative fuel i₄ c₄ h₄).call (by omega) fun elseBranch i₅ c₅ h₅ hi₅ => ?_
    exact follows_lastSpan h₅ (by omega) (follows_pure h₅ (by omega))
  termination_by structural fuel => fuel

theorem follows_alternative : ∀ (fuel i : Nat) (cursor : TokenCursor), cursor.At tokens i →
    Follows tokens (alternative (extra + fuel)) (alternative fuel)
      (Enough tokens i 1 fuel) i i cursor
  | 0, _, _, h => follows_outOfFuel (by have := h.lt; omega)
  | fuel + 1, i, cursor, h => by
    rw [← Nat.add_assoc, alternative, alternative]
    refine (follows_accept h (by simp)).bind fun found i₁ c₁ h₁ hi₁ => ?_
    split
    · refine follows_peek h₁ ?_
      split
      · next hkind =>
        refine follows_skip h₁ (by simp [hkind]) fun h₂ => ?_
        refine (follows_conditional fuel _ _ _ h₂).call (by omega) fun nested i₃ c₃ h₃ hi₃ => ?_
        exact follows_pure h₃ (by omega)
      · refine (follows_block fuel i₁ c₁ h₁).call (by omega) fun block i₂ c₂ h₂ hi₂ => ?_
        exact follows_pure h₂ (by omega)
    · exact follows_pure h₁ hi₁
  termination_by structural fuel => fuel

theorem follows_function : ∀ (fuel : Nat) (start : Span) (i : Nat) (cursor : TokenCursor),
    cursor.At tokens i →
    Follows tokens (function (extra + fuel) start) (function fuel start)
      (Enough tokens i 0 fuel) (i + 1) i cursor
  | 0, _, _, _, h => follows_outOfFuel (by have := h.lt; omega)
  | fuel + 1, start, i, cursor, h => by
    rw [← Nat.add_assoc, function, function, discard_bind, discard_bind]
    refine (follows_expect h (by simp)).bind fun _ i₁ c₁ h₁ hi₁ => ?_
    refine (follows_accept h₁ (by simp)).bind fun found i₂ c₂ h₂ hi₂ => ?_
    have hbody : ∀ (names : List Param) (i₃ : Nat) (c₃ : TokenCursor), c₃.At tokens i₃ →
        i₂ ≤ i₃ → Follows tokens
          (block (extra + fuel) >>= fun body =>
            pure (Expr.function none names body (start.join body.span)))
          (block fuel >>= fun body =>
            pure (Expr.function none names body (start.join body.span)))
          (Enough tokens i 0 (fuel + 1)) (i + 1) i₃ c₃ := by
      intro names i₃ c₃ h₃ hi₃
      refine (follows_block fuel i₃ c₃ h₃).call (by omega) fun body i₄ c₄ h₄ hi₄ => ?_
      exact follows_pure h₄ (by omega)
    split
    · rw [pure_bind, pure_bind]
      exact hbody [] i₂ c₂ h₂ (Nat.le_refl _)
    · refine (follows_params fuel #[] i₂ c₂ h₂).call (by omega) fun names i₃ c₃ h₃ hi₃ => ?_
      exact hbody names i₃ c₃ h₃ (by omega)
  termination_by structural fuel => fuel

theorem follows_entries : ∀ (fuel : Nat) (found : Array (Expr × Expr)) (i : Nat)
    (cursor : TokenCursor), cursor.At tokens i →
    Follows tokens (entries (extra + fuel) found) (entries fuel found)
      (Enough tokens i 2 fuel) i i cursor
  | 0, _, _, _, h => follows_outOfFuel (by have := h.lt; omega)
  | fuel + 1, found, i, cursor, h => by
    rw [← Nat.add_assoc, entries, entries]
    refine follows_peek h ?_
    split
    · exact follows_pure h (Nat.le_refl _)
    · refine (follows_expr fuel .lowest i cursor h).call (by omega) fun key i₁ c₁ h₁ hi₁ => ?_
      rw [discard_bind, discard_bind]
      refine (follows_expect h₁ (by simp)).bind fun _ i₂ c₂ h₂ hi₂ => ?_
      refine (follows_expr fuel .lowest i₂ c₂ h₂).call (by omega) fun value i₃ c₃ h₃ hi₃ => ?_
      refine (follows_accept h₃ (by simp)).bind fun more i₄ c₄ h₄ hi₄ => ?_
      split
      · exact (follows_entries fuel _ i₄ c₄ h₄).mono (by omega) (by omega)
      · exact follows_pure h₄ (by omega)
  termination_by structural fuel => fuel

theorem follows_list : ∀ (fuel : Nat) (closer : Mark) (i : Nat) (cursor : TokenCursor),
    cursor.At tokens i →
    Follows tokens (list (extra + fuel) closer) (list fuel closer)
      (Enough tokens i 3 fuel) i i cursor
  | 0, _, _, _, h => follows_outOfFuel (by have := h.lt; omega)
  | fuel + 1, closer, i, cursor, h => by
    rw [← Nat.add_assoc, list, list]
    refine (follows_accept h (by simp)).bind fun found i₁ c₁ h₁ hi₁ => ?_
    split
    · exact follows_pure h₁ hi₁
    · exact (follows_items fuel closer #[] i₁ c₁ h₁).mono (by omega) (by omega)
  termination_by structural fuel => fuel

theorem follows_items : ∀ (fuel : Nat) (closer : Mark) (found : Array Expr) (i : Nat)
    (cursor : TokenCursor), cursor.At tokens i →
    Follows tokens (items (extra + fuel) closer found) (items fuel closer found)
      (Enough tokens i 2 fuel) (i + 1) i cursor
  | 0, _, _, _, _, h => follows_outOfFuel (by have := h.lt; omega)
  | fuel + 1, closer, found, i, cursor, h => by
    rw [← Nat.add_assoc, items, items]
    refine (follows_expr fuel .lowest i cursor h).call (by omega) fun item i₁ c₁ h₁ hi₁ => ?_
    refine (follows_accept h₁ (by simp)).bind fun comma i₂ c₂ h₂ hi₂ => ?_
    have hrest : ∀ more : Bool,
        Follows tokens (if more then items (extra + fuel) closer (found.push item) else do
            discard <| expect (.mark closer) (.listEnd closer)
            return (found.push item).toList)
          (if more then items fuel closer (found.push item) else do
            discard <| expect (.mark closer) (.listEnd closer)
            return (found.push item).toList)
          (Enough tokens i 2 (fuel + 1)) (i + 1) i₂ c₂ := by
      intro more
      split
      · exact (follows_items fuel closer _ i₂ c₂ h₂).mono (by omega) (by omega)
      · rw [discard_bind, discard_bind]
        refine (follows_expect h₂ (by simp)).bind fun _ i₃ c₃ h₃ hi₃ => ?_
        exact follows_pure h₃ (by omega)
    split
    · refine follows_peek h₂ ?_
      rw [pure_bind, pure_bind]
      exact hrest _
    · rw [pure_bind, pure_bind]
      exact hrest false
  termination_by structural fuel => fuel

theorem follows_block : ∀ (fuel i : Nat) (cursor : TokenCursor), cursor.At tokens i →
    Follows tokens (block (extra + fuel)) (block fuel)
      (Enough tokens i 0 fuel) (i + 1) i cursor
  | 0, _, _, h => follows_outOfFuel (by have := h.lt; omega)
  | fuel + 1, i, cursor, h => by
    rw [← Nat.add_assoc, block, block]
    refine (follows_expect h (by simp)).bind fun start i₁ c₁ h₁ hi₁ => ?_
    refine (follows_statements fuel (some .rightBrace) #[] i₁ c₁ h₁).call (by omega)
      fun body i₂ c₂ h₂ hi₂ => ?_
    refine (follows_expect h₂ (by simp)).bind fun close i₃ c₃ h₃ hi₃ => ?_
    exact follows_pure h₃ (by omega)
  termination_by structural fuel => fuel

theorem follows_statements : ∀ (fuel : Nat) (closer : Option Mark) (found : Array Stmt) (i : Nat)
    (cursor : TokenCursor), cursor.At tokens i →
    Follows tokens (statements (extra + fuel) closer found)
      (statements fuel closer found)
      (Enough tokens i 4 fuel) i i cursor
  | 0, _, _, _, _, h => follows_outOfFuel (by have := h.lt; omega)
  | fuel + 1, closer, found, i, cursor, h => by
    rw [← Nat.add_assoc, statements, statements]
    refine follows_peek h ?_
    split
    · exact follows_pure h (Nat.le_refl _)
    · refine (follows_statement fuel i cursor h).call (by omega) fun s i₁ c₁ h₁ hi₁ => ?_
      exact (follows_statements fuel closer _ i₁ c₁ h₁).mono (by omega) (by omega)
  termination_by structural fuel => fuel

theorem follows_statement : ∀ (fuel i : Nat) (cursor : TokenCursor), cursor.At tokens i →
    Follows tokens (statement (extra + fuel)) (statement fuel)
      (Enough tokens i 3 fuel) (i + 1) i cursor
  | 0, _, _, h => follows_outOfFuel (by have := h.lt; omega)
  | fuel + 1, i, cursor, h => by
    rw [← Nat.add_assoc, statement, statement]
    refine follows_peek h ?_
    have hexpression : Follows tokens (expressionStatement (extra + fuel))
        (expressionStatement fuel) (Enough tokens i 3 (fuel + 1)) (i + 1) i
        cursor :=
      (follows_expressionStatement fuel i cursor h).mono (by omega) (Nat.le_refl _)
    cases hkind : cursor.kind with
    | identifier name =>
      have hne : cursor.kind ≠ .endOfInput := by simp [hkind]
      refine follows_atAssignment h hkind (fun hequal => ?_) hexpression
      refine follows_skip h hne fun h₁ => ?_
      rw [discard_bind, discard_bind]
      refine follows_skip h₁ (by simp [hequal]) fun h₂ => ?_
      refine (follows_expr fuel .lowest (i + 1 + 1) _ h₂).call (by omega)
        fun value i₃ c₃ h₃ hi₃ => ?_
      rw [discard_bind, discard_bind]
      refine (follows_accept h₃ (by simp)).bind fun _ i₄ c₄ h₄ hi₄ => ?_
      exact follows_lastSpan h₄ (by omega) (follows_pure h₄ (by omega))
    | keyword word =>
      have hne : cursor.kind ≠ .endOfInput := by simp [hkind]
      cases word with
      | letWord =>
        exact (follows_declaration fuel .constant i cursor h hne).mono (by omega) (by omega)
      | varWord =>
        exact (follows_declaration fuel .mutable i cursor h hne).mono (by omega) (by omega)
      | returnWord =>
        refine follows_skip h hne fun h₁ => ?_
        refine (follows_returned fuel (i + 1) _ h₁).call (by omega)
          fun value i₂ c₂ h₂ hi₂ => ?_
        rw [discard_bind, discard_bind]
        refine (follows_accept h₂ (by simp)).bind fun _ i₃ c₃ h₃ hi₃ => ?_
        exact follows_lastSpan h₃ (by omega) (follows_pure h₃ (by omega))
      | _ => exact hexpression
    | _ => exact hexpression
  termination_by structural fuel => fuel

theorem follows_declaration : ∀ (fuel : Nat) (mutability : Mutability) (i : Nat)
    (cursor : TokenCursor), cursor.At tokens i → cursor.kind ≠ .endOfInput →
    Follows tokens (declaration (extra + fuel) mutability)
      (declaration fuel mutability)
      (Enough tokens i 0 fuel) (i + 1) i cursor
  | 0, _, _, _, h, _ => follows_outOfFuel (by have := h.lt; omega)
  | fuel + 1, mutability, i, cursor, h, hkind => by
    rw [← Nat.add_assoc, declaration, declaration]
    refine follows_skip h hkind fun h₁ => ?_
    refine (follows_expectName h₁).bind fun name i₂ c₂ h₂ hi₂ => ?_
    rw [discard_bind, discard_bind]
    refine (follows_expect h₂ (by simp)).bind fun _ i₃ c₃ h₃ hi₃ => ?_
    refine (follows_expr fuel .lowest i₃ c₃ h₃).call (by omega) fun value i₄ c₄ h₄ hi₄ => ?_
    rw [discard_bind, discard_bind]
    refine (follows_accept h₄ (by simp)).bind fun _ i₅ c₅ h₅ hi₅ => ?_
    exact follows_lastSpan h₅ (by omega) (follows_pure h₅ (by omega))
  termination_by structural fuel => fuel

theorem follows_returned : ∀ (fuel i : Nat) (cursor : TokenCursor), cursor.At tokens i →
    Follows tokens (returned (extra + fuel)) (returned fuel)
      (Enough tokens i 2 fuel) i i cursor
  | 0, _, _, h => follows_outOfFuel (by have := h.lt; omega)
  | fuel + 1, i, cursor, h => by
    rw [← Nat.add_assoc, returned, returned]
    refine follows_peek h ?_
    split
    · exact follows_pure h (Nat.le_refl _)
    · refine (follows_expr fuel .lowest i cursor h).call (by omega) fun value i₁ c₁ h₁ hi₁ => ?_
      exact follows_pure h₁ (by omega)
  termination_by structural fuel => fuel

theorem follows_expressionStatement : ∀ (fuel i : Nat) (cursor : TokenCursor),
    cursor.At tokens i →
    Follows tokens (expressionStatement (extra + fuel)) (expressionStatement fuel)
      (Enough tokens i 2 fuel) (i + 1) i cursor
  | 0, _, _, h => follows_outOfFuel (by have := h.lt; omega)
  | fuel + 1, i, cursor, h => by
    rw [← Nat.add_assoc, expressionStatement, expressionStatement]
    refine (follows_expr fuel .lowest i cursor h).call (by omega) fun value i₁ c₁ h₁ hi₁ => ?_
    rw [discard_bind, discard_bind]
    refine (follows_accept h₁ (by simp)).bind fun _ i₂ c₂ h₂ hi₂ => ?_
    exact follows_pure h₂ (by omega)
  termination_by structural fuel => fuel

end

/-! ### Whole runs -/

/-- From the index `i` on the reader has the given outcome, with all fuel that is large enough, and
not for want of fuel. It stops inside the tokens, after a success at an index with `stops`. -/
structure Ends (tokens : List Token) (y : Nat → Indexed α) (i : Nat)
    (result : Except (Located ParseError) α) (stops : Nat → Prop) : Prop where
  fueled : ∀ e, result = .error e → e.value ≠ .outOfFuel
  startAt : ∀ fuel, Parse.fuelFor tokens.length ≤ fuel → ∃ i',
    (y fuel).startAt tokens i = (result.mapError .error, i') ∧ i' < tokens.length ∧
      ∀ a, result = .ok a → stops i'

theorem Ends.of_follows {y : Nat → Indexed α} {stops : Nat → Prop}
    (h : ∀ extra, Follows tokens (y (extra + Parse.fuelFor tokens.length)) x enough lo i cursor)
    (henough : enough)
    (hstops : ∀ a cursor' i', x.run cursor = .ok (a, cursor') → cursor'.At tokens i' → lo ≤ i' →
      stops i') : Ends tokens y i ((x.run cursor).map Prod.fst) stops := by
  cases hrun : x.run cursor with
  | ok result =>
    refine ⟨nofun, fun fuel hfuel => ?_⟩
    rw [← Nat.sub_add_cancel hfuel]
    obtain ⟨i', hstart, hat, hlo⟩ := (h _).ok result.1 result.2 hrun
    exact ⟨i', hstart, hat.lt, fun _ _ => hstops result.1 result.2 i' hrun hat hlo⟩
  | error e =>
    refine ⟨fun e' he => ?_, fun fuel hfuel => ?_⟩
    · cases he
      exact ((h 0).error e hrun).elim (fun ⟨_, hnot⟩ => absurd henough hnot) And.left
    · rw [← Nat.sub_add_cancel hfuel]
      rcases (h _).error e hrun with ⟨-, hnot⟩ | ⟨-, i', hstart, hlt⟩
      · exact absurd henough hnot
      · exact ⟨i', hstart, hlt, nofun⟩

end

end Indexed

namespace Parse

/-- What the reader takes from the tokens is not empty, and the end of input is still to come. -/
def Consumes (x : Parse α) (cursor : TokenCursor) : Prop :=
  ∀ a cursor', x.run cursor = .ok (a, cursor') →
    ∃ used, used ≠ [] ∧ cursor.rest = used ++ cursor'.rest ∧ EndsOnce cursor'.rest

theorem Consumes.of_follows {x : Parse α} {y : Indexed α} (hat : cursor.At tokens i)
    (h : Indexed.Follows tokens y x enough (i + 1) i cursor) : x.Consumes cursor := by
  intro a cursor' hrun
  obtain ⟨i', -, hat', hlt⟩ := h.ok a cursor' hrun
  exact hat.consumed hat' hlt

/-- Statements that are in no block are read up to the end of input. -/
theorem kind_of_statements {body : List Stmt} {cursor' : TokenCursor} :
    ∀ (fuel : Nat) (found : Array Stmt) (cursor : TokenCursor),
      (statements fuel none found : Parse _).run cursor = .ok (body, cursor') →
      cursor'.kind = .endOfInput
  | 0, _, _, h => by cases h
  | fuel + 1, found, cursor, h => by
    rw [statements] at h
    change (if cursor.kind = .endOfInput ∨ none = some cursor.kind then _ else _ : Parse _).run
      cursor = _ at h
    split at h
    · next hend =>
      cases h
      exact hend.resolve_right (by simp)
    · rw [StateT.run_bind] at h
      cases hfirst : (statement fuel : Parse Stmt).run cursor with
      | error e =>
        rw [hfirst] at h
        cases h
      | ok result =>
        rw [hfirst] at h
        exact kind_of_statements fuel _ result.2 h

end Parse

/-- The tokens are read to the end, and nothing outside of them. -/
structure ReadInside (tokens : List Token) : Prop where
  /-- The parser ends as `parse` does. If it succeeds, it is at the end of input. -/
  whole : ∃ result, parse tokens = result.map Ast.mk ∧
    Indexed.Ends tokens (fun fuel => Parse.statements fuel none #[]) 0 result
      fun i => i + 1 = tokens.length
  statement : ∀ i < tokens.length, ∃ result,
    Indexed.Ends tokens Parse.statement i result fun i' => i < i'
  expr : ∀ i < tokens.length, ∀ precedence, ∃ result,
    Indexed.Ends tokens (fun fuel => Parse.expr fuel precedence) i result fun i' => i < i'
  /-- The readers that `parse` runs take tokens, too, whenever they succeed. -/
  consumes : ∀ i < tokens.length, ∀ cursor : TokenCursor, cursor.rest = tokens.drop i → ∀ fuel,
    (Parse.statement fuel : Parse Stmt).Consumes cursor ∧
      ∀ precedence, (Parse.expr fuel precedence : Parse Expr).Consumes cursor

/-- On all tokens with one end of input the parser ends, with every look-up in range, and where it
succeeds it has read them all. -/
theorem parse_consumes (h : EndsOnce tokens) : ReadInside tokens := by
  constructor
  case whole =>
    have hat := TokenCursor.at_zero h (.single {})
    refine ⟨_, ?_, Indexed.Ends.of_follows
      (fun extra => Indexed.follows_statements (Parse.fuelFor tokens.length) none #[] 0 _ hat)
      (by rw [Parse.fuelFor]; omega) ?_⟩
    · rw [parse]
      cases (Parse.statements (Parse.fuelFor tokens.length) none #[] : Parse (List Stmt)).run
        ⟨tokens, .single {}⟩ with
      | ok | error => rfl
    · intro body cursor' i' hrun hat' _
      exact hat'.kind_eq_iff.mp (Parse.kind_of_statements _ _ _ hrun)
  case statement =>
    intro i hi
    obtain ⟨cursor, hat⟩ := TokenCursor.exists_at h hi
    exact ⟨_, .of_follows
      (fun extra => Indexed.follows_statement (Parse.fuelFor tokens.length) i cursor hat)
      (by rw [Parse.fuelFor]; omega) fun _ _ _ _ _ hlt => hlt⟩
  case expr =>
    intro i hi precedence
    obtain ⟨cursor, hat⟩ := TokenCursor.exists_at h hi
    exact ⟨_, .of_follows
      (fun extra => Indexed.follows_expr (Parse.fuelFor tokens.length) precedence i cursor hat)
      (by rw [Parse.fuelFor]; omega) fun _ _ _ _ _ hlt => hlt⟩
  case consumes =>
    intro i hi cursor hrest fuel
    have hat : cursor.At cursor.rest 0 := TokenCursor.at_zero (hrest ▸ h.drop hi) cursor.last
    constructor
    · have hfollows : Indexed.Follows _ (Parse.statement (0 + fuel)) _ _ _ _ _ :=
        Indexed.follows_statement fuel 0 cursor hat
      exact .of_follows hat hfollows
    · intro precedence
      have hfollows : Indexed.Follows _ (Parse.expr (0 + fuel) _) _ _ _ _ _ :=
        Indexed.follows_expr fuel precedence 0 cursor hat
      exact .of_follows hat hfollows

/-- A hash, a function with parameters and an early return, a conditional, calls and indices. -/
def mixedStatements : String :=
  "let f = fn(a, b) \x7b if (a) \x7b return b[0]; \x7d; -a \x7d; x = \x7b1: f(2, [3,]), \x7d"

theorem parse_consumes_mixedStatements : ∃ tokens, scan mixedStatements = .ok tokens ∧
    tokens.length = 44 ∧ EndsOnce tokens ∧ ReadInside tokens := by
  have hcheck : (scan mixedStatements).toOption.map List.length = some 44 := by decide +kernel
  cases hscan : scan mixedStatements with
  | error e =>
    rw [hscan] at hcheck
    cases hcheck
  | ok tokens =>
    rw [hscan] at hcheck
    have hends := EndsOnce.of_scan hscan
    exact ⟨tokens, rfl, Option.some.inj hcheck, hends, parse_consumes hends⟩

end Bytescript
