/-
The spans of a syntax tree are nested.

Main statement: in the tree of every text that can be parsed, the span of each node is a part of the
text that contains the spans of its children, the children follow one another without overlap, and
so do the statements of the program (`parseSource_nested`).

Design notes: `TokenCursor.Ordered` says that the tokens still to be read are parts of the text, in
order and behind the last token read. `Parse.Lays x cursor Q` follows a reader from one cursor: if it
gives a result, the cursor it stops at is ordered and not before the first one, and both are in `Q`.
What the functions of the parser read is a `Row` between the ends of the last token read before and
after them. Where a node was begun by a token or a left operand, the row begins there. All functions
are followed at once, by induction on their fuel.
-/
import Bytescript.Proofs.Nodes
import Bytescript.Proofs.Renderable

namespace Bytescript

/-! ### Cursors -/

namespace TokenCursor

variable {source : List Char} {cursor : TokenCursor}

/-- How far the text was read. -/
def reached (cursor : TokenCursor) : Nat :=
  cursor.last.stop.offset

/-- The tokens that are left follow one another behind the last token read. -/
structure Ordered (source : List Char) (cursor : TokenCursor) : Prop where
  last : cursor.last.stop.IsIn source
  isPart : ∀ token ∈ cursor.rest, token.kind ≠ .endOfInput → token.span.IsPart source
  behind : ∀ token ∈ cursor.rest, cursor.reached ≤ token.span.start.offset
  pairwise : cursor.rest.Pairwise fun a b => a.span.stop.offset ≤ b.span.start.offset

/-- The next token lies behind what was read, and the cursor moves to its end. -/
theorem Ordered.next (h : cursor.Ordered source) (hkind : cursor.kind ≠ .endOfInput) :
    cursor.advance.Ordered source ∧ cursor.span.IsPart source ∧
      cursor.reached ≤ cursor.span.start.offset ∧ cursor.advance.last = cursor.span := by
  obtain ⟨token, rest, hrest, hkind', hspan, hadvance⟩ := exists_cons hkind
  have hmem : token ∈ cursor.rest := hrest ▸ List.mem_cons_self
  have hpart := h.isPart token hmem (hkind' ▸ hkind)
  have hpairwise := h.pairwise
  rw [hrest, List.pairwise_cons] at hpairwise
  rw [hadvance, hspan]
  refine ⟨⟨hpart.stop, ?_, hpairwise.1, hpairwise.2⟩, hpart, h.behind token hmem, rfl⟩
  intro other hother
  exact h.isPart other (hrest ▸ List.mem_cons_of_mem token hother)

end TokenCursor

namespace Parse

/-! ### Readers -/

section

variable {α β : Type} {source : List Char} {cursor : TokenCursor} {x : Parse α} {f : α → Parse β}
  {P : α → TokenCursor → Prop} {Q : β → TokenCursor → Prop}

/-- From this cursor, the reader stops at an ordered cursor that is not before it, with a result in
`Q`. -/
def Lays (source : List Char) (x : Parse α) (cursor : TokenCursor)
    (Q : α → TokenCursor → Prop) : Prop :=
  ∀ a cursor', x.run cursor = .ok (a, cursor') →
    cursor'.Ordered source ∧ cursor.reached ≤ cursor'.reached ∧ Q a cursor'

theorem lays_pure {b : β} (h : cursor.Ordered source) (hb : Q b cursor) :
    Lays source (pure b) cursor Q := by
  intro b' cursor' hrun
  cases hrun
  exact ⟨h, Nat.le_refl _, hb⟩

theorem lays_throw {error : Located ParseError} : Lays source (throw error) cursor Q := by
  intro b cursor' hrun
  cases hrun

theorem lays_fail {error : ParseError} : Lays source (fail error) cursor Q := by
  intro b cursor' hrun
  cases hrun

theorem Lays.bind (hx : Lays source x cursor P)
    (hf : ∀ a cursor', cursor'.Ordered source → cursor.reached ≤ cursor'.reached →
      P a cursor' → Lays source (f a) cursor' Q) : Lays source (x >>= f) cursor Q := by
  intro b cursor₂ hrun
  rw [StateT.run_bind] at hrun
  cases hfirst : x.run cursor with
  | error e =>
    rw [hfirst] at hrun
    cases hrun
  | ok result =>
    rw [hfirst] at hrun
    obtain ⟨h₁, hle₁, ha⟩ := hx result.1 result.2 hfirst
    obtain ⟨h₂, hle₂, hb⟩ := hf result.1 result.2 h₁ hle₁ ha b cursor₂ hrun
    exact ⟨h₂, Nat.le_trans hle₁ hle₂, hb⟩

theorem Lays.mono {Q : α → TokenCursor → Prop} (hx : Lays source x cursor P)
    (hQ : ∀ a cursor', P a cursor' → Q a cursor') : Lays source x cursor Q := by
  intro a cursor' hrun
  obtain ⟨h, hle, ha⟩ := hx a cursor' hrun
  exact ⟨h, hle, hQ a cursor' ha⟩

/-- Looking at the next token. -/
theorem lays_peek {f : TokenKind → Parse β} (hf : Lays source (f cursor.kind) cursor Q) :
    Lays source (peek >>= f) cursor Q :=
  hf

theorem lays_get {f : TokenCursor → Parse β} (hf : Lays source (f cursor) cursor Q) :
    Lays source (get >>= f) cursor Q :=
  hf

/-- The last token read. -/
theorem lays_lastSpan {f : Span → Parse β} (hf : Lays source (f cursor.last) cursor Q) :
    Lays source (lastSpan >>= f) cursor Q :=
  hf

/-- A token with this span is read from the first cursor to the second. -/
structure Passes (source : List Char) (cursor : TokenCursor) (span : Span)
    (cursor' : TokenCursor) : Prop where
  isPart : span.IsPart source
  le : cursor.reached ≤ span.start.offset
  reached : span.stop.offset = cursor'.reached

theorem lays_skip (h : cursor.Ordered source) (hkind : cursor.kind ≠ .endOfInput) :
    Lays source skip cursor (Passes source cursor) := by
  intro span cursor' hrun
  cases hrun
  obtain ⟨hordered, hpart, hle, hlast⟩ := h.next hkind
  have hreached : cursor.span.stop.offset = cursor.advance.reached := by
    rw [TokenCursor.reached, hlast]
  have hlt := hpart.lt
  exact ⟨hordered, by omega, hpart, hle, hreached⟩

/-- Reading a token that may be the end of input. -/
theorem lays_skip_any (h : cursor.Ordered source) : Lays source skip cursor fun _ _ => True := by
  by_cases hkind : cursor.kind = .endOfInput
  · intro span cursor' hrun
    cases hrun
    rw [TokenCursor.advance_eq_self hkind]
    exact ⟨h, Nat.le_refl _, trivial⟩
  · intro span cursor' hrun
    obtain ⟨hordered, hle, -⟩ := lays_skip h hkind span cursor' hrun
    exact ⟨hordered, hle, trivial⟩

theorem lays_accept {kind : TokenKind} (h : cursor.Ordered source) :
    Lays source (accept kind) cursor fun _ _ => True := by
  refine lays_peek ?_
  split
  · rw [discard_bind]
    exact (lays_skip_any h).bind fun _ _ h' _ _ => lays_pure h' trivial
  · exact lays_pure h trivial

theorem lays_expect {kind : TokenKind} {what : Expectation} (h : cursor.Ordered source)
    (hkind : kind ≠ .endOfInput) :
    Lays source (expect kind what) cursor (Passes source cursor) := by
  refine lays_peek ?_
  split
  · next heq => exact lays_skip h (heq ▸ hkind)
  · exact lays_fail

theorem lays_expectName {what : Expectation} (h : cursor.Ordered source) :
    Lays source (expectName what) cursor fun name => Passes source cursor name.span := by
  refine lays_peek ?_
  split
  · next name hname =>
    refine (lays_skip h (by simp [hname])).bind fun span cursor' h' _ hpasses => ?_
    exact lays_pure h' hpasses
  · exact lays_fail

theorem lays_params : ∀ (fuel : Nat) (found : Array Param) (cursor : TokenCursor) (lo : Nat),
    cursor.Ordered source → Row source lo (found.toList.map .param) cursor.reached →
    Lays source (params fuel found) cursor fun names cursor' =>
      Row source lo (names.map .param) cursor'.reached
  | 0, _, _, _, _, _ => lays_fail
  | fuel + 1, found, cursor, lo, h, hfound => by
    rw [params]
    refine (lays_expectName h).bind fun name c₁ h₁ _ hname => ?_
    have hparam : Row source cursor.reached [.param ⟨name.value, name.span⟩] c₁.reached :=
      .leaf rfl hname.isPart hname.le (Nat.le_of_eq hname.reached)
    have hpush : Row source lo ((found.push ⟨name.value, name.span⟩).toList.map .param)
        c₁.reached := by
      rw [Array.toList_push, List.map_append]
      exact hfound.append hparam
    refine (lays_accept h₁).bind fun more c₂ h₂ hle₂ _ => ?_
    have hpush₂ := hpush.mono (Nat.le_refl _) hle₂
    split
    · exact lays_params fuel _ c₂ lo h₂ hpush₂
    · rw [discard_bind]
      refine (lays_expect h₂ (by simp)).bind fun _ c₃ h₃ hle₃ _ => ?_
      exact lays_pure h₃ (hpush₂.mono (Nat.le_refl _) hle₃)

/-! ### The functions of the parser -/

mutual

theorem lays_expr : ∀ (fuel : Nat) (precedence : Precedence) (cursor : TokenCursor),
    cursor.Ordered source → Lays source (expr fuel precedence) cursor fun e cursor' =>
      Row source cursor.reached [.expr e] cursor'.reached
  | 0, _, _, _ => lays_fail
  | fuel + 1, precedence, cursor, h => by
    rw [expr]
    refine (lays_operand fuel cursor h).bind fun left c₁ h₁ _ hleft => ?_
    exact lays_continued fuel precedence left c₁ cursor.reached h₁ hleft
  termination_by structural fuel => fuel

theorem lays_continued : ∀ (fuel : Nat) (precedence : Precedence) (left : Expr)
    (cursor : TokenCursor) (lo : Nat), cursor.Ordered source →
    Row source lo [.expr left] cursor.reached →
    Lays source (continued fuel precedence left) cursor fun e cursor' =>
      Row source lo [.expr e] cursor'.reached
  | 0, _, _, _, _, _, _ => lays_fail
  | fuel + 1, precedence, left, cursor, lo, h, hleft => by
    rw [continued]
    refine lays_peek ?_
    split
    · exact lays_pure h hleft
    · split
      · rw [discard_bind]
        refine (lays_skip_any h).bind fun _ c₁ h₁ hle₁ _ => ?_
        have hleft₁ := hleft.mono (Nat.le_refl _) hle₁
        split
        · refine (lays_list fuel .rightParen c₁ h₁).bind fun args c₂ h₂ _ hargs => ?_
          refine lays_lastSpan ?_
          exact lays_continued fuel precedence _ c₂ lo h₂ (hleft₁.extended hargs h₂.last rfl rfl)
        · refine (lays_expr fuel .lowest c₁ h₁).bind fun index c₂ h₂ _ hindex => ?_
          refine (lays_expect h₂ (by simp)).bind fun close c₃ h₃ hle₃ hclose => ?_
          have hindex₃ := hindex.mono (Nat.le_refl _) hle₃
          rw [← hclose.reached] at hindex₃
          refine lays_continued fuel precedence _ c₃ lo h₃ ?_
          rw [← hclose.reached]
          exact hleft₁.extended hindex₃ hclose.isPart.stop rfl rfl
        · next op _ _ =>
          refine (lays_expr fuel op.precedence c₁ h₁).bind fun right c₂ h₂ _ hright => ?_
          -- an operator has no closing token: the new node ends where its right operand does
          obtain ⟨hnests, -, hstop⟩ := Row.singleton_iff.mp hright
          refine lays_continued fuel precedence _ c₂ lo h₂ ?_
          have hbinary := hleft₁.extended hright.shrink hnests.isNested.isPart.stop
            (n := .expr (.binary op left right (left.span.join right.span))) rfl rfl
          exact hbinary.mono (Nat.le_refl _) hstop
      · exact lays_pure h hleft
  termination_by structural fuel => fuel

theorem lays_operand : ∀ (fuel : Nat) (cursor : TokenCursor), cursor.Ordered source →
    Lays source (operand fuel) cursor fun e cursor' =>
      Row source cursor.reached [.expr e] cursor'.reached
  | 0, _, _ => lays_fail
  | fuel + 1, cursor, h => by
    refine lays_peek ?_
    split
    · exact lays_fail
    · next hne =>
      refine (lays_skip h hne).bind fun span c₁ h₁ _ hspan => ?_
      have hreached := Nat.le_of_eq hspan.reached
      have hleaf : ∀ e : Expr, e.children = [] → e.span = span →
          Lays source (pure e) c₁ fun e cursor' =>
            Row source cursor.reached [.expr e] cursor'.reached := by
        rintro e hchildren rfl
        exact lays_pure h₁ (.leaf hchildren hspan.isPart hspan.le hreached)
      -- what begins with the token at `span` begins behind what was read before
      have hopened : ∀ (e : Expr) (cursor' : TokenCursor),
          Row source span.start.offset [.expr e] cursor'.reached →
          Row source cursor.reached [.expr e] cursor'.reached :=
        fun e cursor' hrow => hrow.mono hspan.le (Nat.le_refl _)
      cases hkind : cursor.kind with
      | identifier | integer | float | string => exact hleaf _ rfl rfl
      | keyword word =>
        cases word with
        | trueWord | falseWord | nullWord => exact hleaf _ rfl rfl
        | ifWord =>
          exact (lays_conditional fuel span c₁ h₁ hspan.isPart hreached).mono hopened
        | fnWord =>
          exact (lays_function fuel span c₁ h₁ hspan.isPart hreached).mono hopened
        | _ => exact lays_throw
      | mark m =>
        cases m with
        | bang => exact (lays_unary fuel .not span c₁ h₁ hspan.isPart hreached).mono hopened
        | minus => exact (lays_unary fuel .negate span c₁ h₁ hspan.isPart hreached).mono hopened
        | leftParen =>
          refine (lays_expr fuel .lowest c₁ h₁).bind fun inner c₂ h₂ _ hinner => ?_
          rw [discard_bind]
          refine (lays_expect h₂ (by simp)).bind fun _ c₃ h₃ hle₃ _ => ?_
          have hlt := hspan.isPart.lt
          have hle := hspan.le
          exact lays_pure h₃ (hinner.mono (by omega) hle₃)
        | leftBracket =>
          refine (lays_list fuel .rightBracket c₁ h₁).bind fun elements c₂ h₂ _ helements => ?_
          refine lays_lastSpan (lays_pure h₂ (hopened _ _ ?_))
          exact .opened hspan.isPart hreached helements h₂.last rfl
        | leftBrace =>
          refine (lays_entries fuel #[] c₁ c₁.reached h₁ (.nil (Nat.le_refl _))).bind
            fun pairs c₂ h₂ _ hpairs => ?_
          refine (lays_expect h₂ (by simp)).bind fun close c₃ h₃ hle₃ hclose => ?_
          have hpairs₃ := hpairs.mono (Nat.le_refl _) hle₃
          rw [← hclose.reached] at hpairs₃
          refine lays_pure h₃ (hopened _ _ ?_)
          rw [← hclose.reached]
          exact .opened hspan.isPart hreached hpairs₃ hclose.isPart.stop rfl
        | _ => exact lays_throw
      | endOfInput => exact lays_throw
  termination_by structural fuel => fuel

theorem lays_unary : ∀ (fuel : Nat) (op : UnaryOp) (start : Span) (cursor : TokenCursor),
    cursor.Ordered source → start.IsPart source → start.stop.offset ≤ cursor.reached →
    Lays source (unary fuel op start) cursor fun e cursor' =>
      Row source start.start.offset [.expr e] cursor'.reached
  | 0, _, _, _, _, _, _ => lays_fail
  | fuel + 1, op, start, cursor, h, hstart, hle => by
    rw [unary]
    refine (lays_expr fuel .unary cursor h).bind fun inner c₁ h₁ _ hinner => ?_
    obtain ⟨hnests, -, hstop⟩ := Row.singleton_iff.mp hinner
    have hunary := Row.opened hstart hle hinner.shrink hnests.isNested.isPart.stop
      (n := .expr (.unary op inner (start.join inner.span))) rfl
    exact lays_pure h₁ (hunary.mono (Nat.le_refl _) hstop)
  termination_by structural fuel => fuel

theorem lays_conditional : ∀ (fuel : Nat) (start : Span) (cursor : TokenCursor),
    cursor.Ordered source → start.IsPart source → start.stop.offset ≤ cursor.reached →
    Lays source (conditional fuel start) cursor fun e cursor' =>
      Row source start.start.offset [.expr e] cursor'.reached
  | 0, _, _, _, _, _ => lays_fail
  | fuel + 1, start, cursor, h, hstart, hle => by
    rw [conditional, discard_bind]
    refine (lays_expect h (by simp)).bind fun _ c₁ h₁ hle₁ _ => ?_
    refine (lays_expr fuel .lowest c₁ h₁).bind fun condition c₂ h₂ _ hcondition => ?_
    rw [discard_bind]
    refine (lays_expect h₂ (by simp)).bind fun _ c₃ h₃ hle₃ _ => ?_
    refine (lays_block fuel c₃ h₃).bind fun thenBranch c₄ h₄ _ hthen => ?_
    refine (lays_alternative fuel c₄ h₄).bind fun elseBranch c₅ h₅ _ helse => ?_
    refine lays_lastSpan (lays_pure h₅ ?_)
    have hchildren := (hcondition.mono (Nat.le_refl _) hle₃).append (hthen.append helse)
    exact .opened hstart (Nat.le_trans hle hle₁) hchildren h₅.last rfl
  termination_by structural fuel => fuel

theorem lays_alternative : ∀ (fuel : Nat) (cursor : TokenCursor), cursor.Ordered source →
    Lays source (alternative fuel) cursor fun block cursor' =>
      Row source cursor.reached (block.toList.map .block) cursor'.reached
  | 0, _, _ => lays_fail
  | fuel + 1, cursor, h => by
    rw [alternative]
    refine (lays_accept h).bind fun found c₁ h₁ hle₁ _ => ?_
    split
    · refine lays_peek ?_
      split
      · next hkind =>
        refine (lays_skip h₁ (by simp [hkind])).bind fun start c₂ h₂ _ hstart => ?_
        refine (lays_conditional fuel start c₂ h₂ hstart.isPart
          (Nat.le_of_eq hstart.reached)).bind fun nested c₃ h₃ _ hnested => ?_
        -- the block and its only statement stand where the nested conditional stands
        have hstmt : Row source start.start.offset [.stmt (.expression nested nested.span)]
            c₃.reached := hnested.wrap rfl rfl
        have hblock : Row source start.start.offset
            [.block (.mk [.expression nested nested.span] nested.span)] c₃.reached :=
          hstmt.wrap rfl rfl
        have hle := hstart.le
        exact lays_pure h₃ (hblock.mono (by omega) (Nat.le_refl _))
      · refine (lays_block fuel c₁ h₁).bind fun block c₂ h₂ _ hblock => ?_
        exact lays_pure h₂ (hblock.mono hle₁ (Nat.le_refl _))
    · exact lays_pure h₁ (.nil hle₁)
  termination_by structural fuel => fuel

theorem lays_function : ∀ (fuel : Nat) (start : Span) (cursor : TokenCursor),
    cursor.Ordered source → start.IsPart source → start.stop.offset ≤ cursor.reached →
    Lays source (function fuel start) cursor fun e cursor' =>
      Row source start.start.offset [.expr e] cursor'.reached
  | 0, _, _, _, _, _ => lays_fail
  | fuel + 1, start, cursor, h, hstart, hle => by
    -- the body is read in the same way with parameters and without them
    have hbody : ∀ (names : List Param) (c : TokenCursor), c.Ordered source →
        Row source cursor.reached (names.map .param) c.reached →
        Lays source (block fuel >>= fun body =>
          pure (Expr.function none names body (start.join body.span))) c fun e cursor' =>
            Row source start.start.offset [.expr e] cursor'.reached := by
      intro names c hc hnames
      refine (lays_block fuel c hc).bind fun body c₁ h₁ _ hbody => ?_
      obtain ⟨hnests, -, hstop⟩ := Row.singleton_iff.mp hbody
      have hfunction := Row.opened hstart hle (hnames.append hbody.shrink)
        hnests.isNested.isPart.stop
        (n := .expr (.function none names body (start.join body.span))) rfl
      exact lays_pure h₁ (hfunction.mono (Nat.le_refl _) hstop)
    rw [function, discard_bind]
    refine (lays_expect h (by simp)).bind fun _ c₁ h₁ hle₁ _ => ?_
    refine (lays_accept h₁).bind fun found c₂ h₂ hle₂ _ => ?_
    have hnone : Row source cursor.reached [] c₂.reached := .nil (Nat.le_trans hle₁ hle₂)
    split
    · rw [pure_bind]
      exact hbody [] c₂ h₂ hnone
    · refine (lays_params fuel #[] c₂ cursor.reached h₂ hnone).bind fun names c₃ h₃ _ hnames => ?_
      exact hbody names c₃ h₃ hnames
  termination_by structural fuel => fuel

theorem lays_entries : ∀ (fuel : Nat) (found : Array (Expr × Expr)) (cursor : TokenCursor)
    (lo : Nat), cursor.Ordered source →
    Row source lo (found.toList.flatMap fun entry => [.expr entry.1, .expr entry.2])
      cursor.reached →
    Lays source (entries fuel found) cursor fun pairs cursor' =>
      Row source lo (pairs.flatMap fun entry => [.expr entry.1, .expr entry.2]) cursor'.reached
  | 0, _, _, _, _, _ => lays_fail
  | fuel + 1, found, cursor, lo, h, hfound => by
    rw [entries]
    refine lays_peek ?_
    split
    · exact lays_pure h hfound
    · refine (lays_expr fuel .lowest cursor h).bind fun key c₁ h₁ _ hkey => ?_
      rw [discard_bind]
      refine (lays_expect h₁ (by simp)).bind fun _ c₂ h₂ hle₂ _ => ?_
      refine (lays_expr fuel .lowest c₂ h₂).bind fun value c₃ h₃ _ hvalue => ?_
      have hpush : Row source lo ((found.push (key, value)).toList.flatMap fun entry =>
          [.expr entry.1, .expr entry.2]) c₃.reached := by
        rw [Array.toList_push, List.flatMap_append]
        exact hfound.append ((hkey.mono (Nat.le_refl _) hle₂).append hvalue)
      refine (lays_accept h₃).bind fun more c₄ h₄ hle₄ _ => ?_
      have hpush₄ := hpush.mono (Nat.le_refl _) hle₄
      split
      · exact lays_entries fuel _ c₄ lo h₄ hpush₄
      · exact lays_pure h₄ hpush₄
  termination_by structural fuel => fuel

theorem lays_list : ∀ (fuel : Nat) (closer : Mark) (cursor : TokenCursor),
    cursor.Ordered source → Lays source (list fuel closer) cursor fun es cursor' =>
      Row source cursor.reached (es.map .expr) cursor'.reached
  | 0, _, _, _ => lays_fail
  | fuel + 1, closer, cursor, h => by
    rw [list]
    refine (lays_accept h).bind fun found c₁ h₁ hle₁ _ => ?_
    split
    · exact lays_pure h₁ (.nil hle₁)
    · exact lays_items fuel closer #[] c₁ cursor.reached h₁ (.nil hle₁)
  termination_by structural fuel => fuel

theorem lays_items : ∀ (fuel : Nat) (closer : Mark) (found : Array Expr) (cursor : TokenCursor)
    (lo : Nat), cursor.Ordered source →
    Row source lo (found.toList.map .expr) cursor.reached →
    Lays source (items fuel closer found) cursor fun es cursor' =>
      Row source lo (es.map .expr) cursor'.reached
  | 0, _, _, _, _, _, _ => lays_fail
  | fuel + 1, closer, found, cursor, lo, h, hfound => by
    rw [items]
    refine (lays_expr fuel .lowest cursor h).bind fun item c₁ h₁ _ hitem => ?_
    have hpush : Row source lo ((found.push item).toList.map .expr) c₁.reached := by
      rw [Array.toList_push, List.map_append]
      exact hfound.append hitem
    refine (lays_accept h₁).bind fun comma c₂ h₂ hle₂ _ => ?_
    have hpush₂ := hpush.mono (Nat.le_refl _) hle₂
    -- with a comma read, there may be another item or the closing mark
    have hrest : ∀ more : Bool,
        Lays source (if more then items fuel closer (found.push item) else do
          discard <| expect (.mark closer) (.listEnd closer)
          return (found.push item).toList) c₂ fun es cursor' =>
            Row source lo (es.map .expr) cursor'.reached := by
      intro more
      split
      · exact lays_items fuel closer _ c₂ lo h₂ hpush₂
      · rw [discard_bind]
        refine (lays_expect h₂ (by simp)).bind fun _ c₃ h₃ hle₃ _ => ?_
        exact lays_pure h₃ (hpush₂.mono (Nat.le_refl _) hle₃)
    split
    · refine lays_peek ?_
      rw [pure_bind]
      exact hrest _
    · rw [pure_bind]
      exact hrest false
  termination_by structural fuel => fuel

theorem lays_block : ∀ (fuel : Nat) (cursor : TokenCursor), cursor.Ordered source →
    Lays source (block fuel) cursor fun block cursor' =>
      Row source cursor.reached [.block block] cursor'.reached
  | 0, _, _ => lays_fail
  | fuel + 1, cursor, h => by
    rw [block]
    refine (lays_expect h (by simp)).bind fun start c₁ h₁ _ hstart => ?_
    refine (lays_statements fuel _ #[] c₁ c₁.reached h₁ (.nil (Nat.le_refl _))).bind
      fun body c₂ h₂ _ hbody => ?_
    refine (lays_expect h₂ (by simp)).bind fun close c₃ h₃ hle₃ hclose => ?_
    have hbody₃ := hbody.mono (Nat.le_refl _) hle₃
    rw [← hclose.reached] at hbody₃
    have hblock := Row.opened hstart.isPart (Nat.le_of_eq hstart.reached) hbody₃
      hclose.isPart.stop (n := .block (.mk body (start.join close))) rfl
    exact lays_pure h₃ (hblock.mono hstart.le (Nat.le_of_eq hclose.reached))
  termination_by structural fuel => fuel

theorem lays_statements : ∀ (fuel : Nat) (closer : Option Mark) (found : Array Stmt)
    (cursor : TokenCursor) (lo : Nat), cursor.Ordered source →
    Row source lo (found.toList.map .stmt) cursor.reached →
    Lays source (statements fuel closer found) cursor fun body cursor' =>
      Row source lo (body.map .stmt) cursor'.reached
  | 0, _, _, _, _, _, _ => lays_fail
  | fuel + 1, closer, found, cursor, lo, h, hfound => by
    rw [statements]
    refine lays_peek ?_
    split
    · exact lays_pure h hfound
    · refine (lays_statement fuel cursor h).bind fun s c₁ h₁ _ hs => ?_
      have hpush : Row source lo ((found.push s).toList.map .stmt) c₁.reached := by
        rw [Array.toList_push, List.map_append]
        exact hfound.append hs
      exact lays_statements fuel closer _ c₁ lo h₁ hpush
  termination_by structural fuel => fuel

theorem lays_statement : ∀ (fuel : Nat) (cursor : TokenCursor), cursor.Ordered source →
    Lays source (statement fuel) cursor fun s cursor' =>
      Row source cursor.reached [.stmt s] cursor'.reached
  | 0, _, _ => lays_fail
  | fuel + 1, cursor, h => by
    rw [statement]
    refine lays_peek ?_
    split
    · next hkind => exact lays_declaration fuel .constant cursor h (by simp [hkind])
    · next hkind => exact lays_declaration fuel .mutable cursor h (by simp [hkind])
    · next hkind =>
      refine (lays_skip h (by simp [hkind])).bind fun start c₁ h₁ _ hstart => ?_
      refine (lays_returned fuel c₁ h₁).bind fun value c₂ h₂ _ hvalue => ?_
      rw [discard_bind]
      refine (lays_accept h₂).bind fun _ c₃ h₃ hle₃ _ => ?_
      have hret := Row.opened hstart.isPart (Nat.le_of_eq hstart.reached)
        (hvalue.mono (Nat.le_refl _) hle₃) h₃.last (n := .stmt (.ret value (start.join c₃.last))) rfl
      exact lays_lastSpan (lays_pure h₃ (hret.mono hstart.le (Nat.le_refl _)))
    · next name hkind =>
      refine lays_get ?_
      split
      · refine (lays_skip h (by simp [hkind])).bind fun start c₁ h₁ _ hstart => ?_
        rw [discard_bind]
        refine (lays_skip_any h₁).bind fun _ c₂ h₂ hle₂ _ => ?_
        refine (lays_expr fuel .lowest c₂ h₂).bind fun value c₃ h₃ _ hvalue => ?_
        rw [discard_bind]
        refine (lays_accept h₃).bind fun _ c₄ h₄ hle₄ _ => ?_
        have hassign := Row.opened hstart.isPart (Nat.le_of_eq hstart.reached)
          (hvalue.mono hle₂ hle₄) h₄.last
          (n := .stmt (.assign name value (start.join c₄.last))) rfl
        exact lays_lastSpan (lays_pure h₄ (hassign.mono hstart.le (Nat.le_refl _)))
      · exact lays_expressionStatement fuel cursor h
    · exact lays_expressionStatement fuel cursor h
  termination_by structural fuel => fuel

theorem lays_declaration : ∀ (fuel : Nat) (mutability : Mutability) (cursor : TokenCursor),
    cursor.Ordered source → cursor.kind ≠ .endOfInput →
    Lays source (declaration fuel mutability) cursor fun s cursor' =>
      Row source cursor.reached [.stmt s] cursor'.reached
  | 0, _, _, _, _ => lays_fail
  | fuel + 1, mutability, cursor, h, hkind => by
    rw [declaration]
    refine (lays_skip h hkind).bind fun start c₁ h₁ _ hstart => ?_
    refine (lays_expectName h₁).bind fun name c₂ h₂ hle₂ _ => ?_
    rw [discard_bind]
    refine (lays_expect h₂ (by simp)).bind fun _ c₃ h₃ hle₃ _ => ?_
    refine (lays_expr fuel .lowest c₃ h₃).bind fun value c₄ h₄ _ hvalue => ?_
    rw [discard_bind]
    refine (lays_accept h₄).bind fun _ c₅ h₅ hle₅ _ => ?_
    have hnamed := (hvalue.named name.value).mono (Nat.le_trans hle₂ hle₃) hle₅
    have hdeclare := Row.opened hstart.isPart (Nat.le_of_eq hstart.reached) hnamed h₅.last
      (n := .stmt (.declare mutability name.value (value.named name.value)
        (start.join c₅.last))) rfl
    exact lays_lastSpan (lays_pure h₅ (hdeclare.mono hstart.le (Nat.le_refl _)))
  termination_by structural fuel => fuel

theorem lays_returned : ∀ (fuel : Nat) (cursor : TokenCursor), cursor.Ordered source →
    Lays source (returned fuel) cursor fun value cursor' =>
      Row source cursor.reached (value.toList.map .expr) cursor'.reached
  | 0, _, _ => lays_fail
  | fuel + 1, cursor, h => by
    rw [returned]
    refine lays_peek ?_
    split
    · exact lays_pure h (.nil (Nat.le_refl _))
    · refine (lays_expr fuel .lowest cursor h).bind fun value c₁ h₁ _ hvalue => ?_
      exact lays_pure h₁ hvalue
  termination_by structural fuel => fuel

theorem lays_expressionStatement : ∀ (fuel : Nat) (cursor : TokenCursor),
    cursor.Ordered source → Lays source (expressionStatement fuel) cursor fun s cursor' =>
      Row source cursor.reached [.stmt s] cursor'.reached
  | 0, _, _ => lays_fail
  | fuel + 1, cursor, h => by
    rw [expressionStatement]
    refine (lays_expr fuel .lowest cursor h).bind fun value c₁ h₁ _ hvalue => ?_
    rw [discard_bind]
    refine (lays_accept h₁).bind fun _ c₂ h₂ hle₂ _ => ?_
    have hstmt : Row source cursor.reached [.stmt (.expression value value.span)] c₁.reached :=
      hvalue.wrap rfl rfl
    exact lays_pure h₂ (hstmt.mono (Nat.le_refl _) hle₂)
  termination_by structural fuel => fuel

end

end

end Parse

/-! ### Programs -/

/-- The tokens of a text follow one another from its beginning on. -/
theorem Tiles.ordered_start {source : List Char} {tokens : List Token} (h : Tiles source 0 tokens) :
    (TokenCursor.mk tokens (.single {})).Ordered source := by
  constructor
  case last => exact ⟨Nat.zero_le _, rfl⟩
  case isPart =>
    intro token htoken hkind
    have hlt : token.span.start.offset < token.span.stop.offset := by
      obtain ⟨front, hfront, -⟩ := h.ends
      have hordered := h.ordered
      rw [hfront] at htoken hordered
      rcases List.mem_append.mp htoken with hmem | hend
      · exact ((List.pairwise_append.mp hordered).2.2 token hmem _ List.mem_cons_self).1
      · exact absurd (congrArg Token.kind (List.mem_singleton.mp hend)) hkind
    exact ⟨Position.isIn_of_eq (h.start_eq token htoken),
      Position.isIn_of_eq (h.stop_eq token htoken), hlt⟩
  case behind => exact fun token _ => Nat.zero_le _
  case pairwise => exact h.ordered.imp And.right

/-- The statements of a program that was parsed are a row. -/
theorem parse_row {source : List Char} {tokens : List Token} {ast : Ast}
    (htokens : (TokenCursor.mk tokens (.single {})).Ordered source) (h : parse tokens = .ok ast) :
    ∃ hi, Row source 0 (ast.statements.map .stmt) hi := by
  rw [parse] at h
  split at h
  · next statements cursor hrun =>
    cases h
    have hlays := Parse.lays_statements (Parse.fuelFor tokens.length) none #[] _ 0 htokens
      (.nil (Nat.zero_le _))
    obtain ⟨-, -, hrow⟩ := hlays statements cursor hrun
    exact ⟨cursor.reached, hrow⟩
  · cases h

/-- In the tree of every text that can be parsed, each node has a part of the text that contains the
parts of its children, which follow one another, and the statements follow one another. -/
theorem parseSource_nested {file source : String} {ast : Ast}
    (h : parseSource file source = .ok ast) :
    (∀ n, ast.HasNode n → n.IsNested source.toList) ∧
      ast.statements.Pairwise fun s t => s.span.Before t.span := by
  obtain ⟨tokens, hscan, hparse⟩ := parseSource_ok_iff.mp h
  have hstart : ({} : Position) = .ofText [] := rfl
  have htiles : Tiles source.toList 0 tokens := (scan_ok_iff.mp hscan).tiles hstart
  obtain ⟨hi, hrow⟩ := parse_row htiles.ordered_start hparse
  constructor
  · intro n hn
    have hstatements : ∀ s ∈ ast.statements, (Node.stmt s).Nests source.toList := by
      intro s hs
      exact (hrow.forall_mem (.stmt s) (List.mem_map_of_mem hs)).1
    exact (hn.nests hstatements).isNested
  · have hpairwise := List.pairwise_map.mp hrow.pairwise
    exact hpairwise

/-- Operands in parentheses, an `else if`, a function with parameters, and statements with and
without a semicolon. -/
def elseIfSource : String :=
  "let f = fn(a, b) \x7b if (a) \x7b b \x7d else if (!b) \x7b -(a + 1) \x7d \x7d; (f)((2), 3) * (4)\nf"

theorem parseSource_nested_elseIf : ∃ ast, parseSource "elseIf" elseIfSource = .ok ast ∧
    ast.statements.length = 3 ∧ (∀ n, ast.HasNode n → n.IsNested elseIfSource.toList) ∧
    ast.statements.Pairwise fun s t => s.span.Before t.span := by
  have hcheck : (parseSource "elseIf" elseIfSource).toOption.map (·.statements.length) =
      some 3 := by
    decide +kernel
  cases hparse : parseSource "elseIf" elseIfSource with
  | error d =>
    rw [hparse] at hcheck
    cases hcheck
  | ok ast =>
    rw [hparse] at hcheck
    exact ⟨ast, rfl, Option.some.inj hcheck, parseSource_nested hparse⟩

end Bytescript
