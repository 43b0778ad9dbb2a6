/-
The parser reads trees from their tokens.

Main statement: tokens that write statements are parsed into these statements
(`StmtsSpelled.parse`). It is put together from one lemma for each constructor of the trees.

Design notes: a callee, a left operand and an indexed object are read before the parser knows what
they belong to. So what is said of an expression is not that `Parse.expr` reads it, but that it
comes to the point where it looks for a continuation of it (`Expr.ReadBack`). What may stand there
is anything but an `else`, which a conditional would take for its own. Spans are left out of the
comparison (`Expr.unlocated`).

Every function calls others with one unit of fuel less, and it reads a token after no more than a
few calls. The bounds count eight units for a token, and how far a function is away from the next
one is added to them or taken off.
-/
import Bytescript.Proofs.Grammar
import Bytescript.Proofs.Readers
import Mathlib.Data.List.Forall2

namespace Bytescript

/-! ### Trees without places -/

/-- A parameter without its place. -/
def Param.unlocated (param : Param) : Param :=
  ⟨param.name, {}⟩

mutual

/-- An expression without the places of its parts. -/
def Expr.unlocated : Expr → Expr
  | .identifier name _ => .identifier name {}
  | .integer value _ => .integer value {}
  | .float value _ => .float value {}
  | .string value _ => .string value {}
  | .boolean value _ => .boolean value {}
  | .null _ => .null {}
  | .unary op operand _ => .unary op operand.unlocated {}
  | .binary op left right _ => .binary op left.unlocated right.unlocated {}
  | .conditional condition thenBranch elseBranch _ =>
    .conditional condition.unlocated thenBranch.unlocated (unlocatedElse elseBranch) {}
  | .function name params body _ =>
    .function name (params.map Param.unlocated) body.unlocated {}
  | .call callee args _ => .call callee.unlocated (unlocatedAll args) {}
  | .array elements _ => .array (unlocatedAll elements) {}
  | .hash entries _ => .hash (unlocatedEntries entries) {}
  | .index object index _ => .index object.unlocated index.unlocated {}

/-- Expressions without places. -/
def unlocatedAll : List Expr → List Expr
  | [] => []
  | e :: rest => e.unlocated :: unlocatedAll rest

/-- The entries of a hash without places. -/
def unlocatedEntries : List (Expr × Expr) → List (Expr × Expr)
  | [] => []
  | (key, value) :: rest => (key.unlocated, value.unlocated) :: unlocatedEntries rest

/-- The `else` part of a conditional without places. -/
def unlocatedElse : Option Block → Option Block
  | none => none
  | some block => some block.unlocated

/-- A statement without the places of its parts. -/
def Stmt.unlocated : Stmt → Stmt
  | .declare mutability name value _ => .declare mutability name value.unlocated {}
  | .assign name value _ => .assign name value.unlocated {}
  | .ret none _ => .ret none {}
  | .ret (some value) _ => .ret (some value.unlocated) {}
  | .expression e _ => .expression e.unlocated {}

/-- Statements without places. -/
def unlocatedStatements : List Stmt → List Stmt
  | [] => []
  | s :: rest => s.unlocated :: unlocatedStatements rest

/-- A block without the places of its parts. -/
def Block.unlocated : Block → Block
  | .mk statements _ => .mk (unlocatedStatements statements) {}

end

/-- A program without places. -/
def Ast.unlocated (ast : Ast) : Ast :=
  ⟨unlocatedStatements ast.statements⟩

/-! ### Expressions -/

open Parse

/-- Ends an expression. -/
def TokenKind.Closes (kind : TokenKind) : Prop :=
  Continuation.ofToken? kind = none ∧ kind ≠ .keyword .elseWord

/-- Does not go on with an expression of which the operators bind more tightly than
`precedence`. -/
def TokenKind.Stops (precedence : Precedence) (kind : TokenKind) : Prop :=
  ∀ c, Continuation.ofToken? kind = some c → c.precedence.level ≤ precedence.level

theorem TokenKind.stops_of_none {kind : TokenKind} (h : Continuation.ofToken? kind = none)
    (precedence : Precedence) : kind.Stops precedence := by
  intro c hc
  rw [h] at hc
  cases hc

/-- The parser reads the expression from tokens of the kinds `ks` and then looks for what continues
it. -/
structure Expr.ReadBack (e : Expr) (ks : List TokenKind) : Prop where
  spelled : e.Spelled ks
  leads : ∀ {fuel : Nat} {precedence : Precedence}, precedence.level < Precedence.call.level →
    8 * ks.length ≤ fuel + e.calls + 4 →
    Leads (Parse.expr (fuel + e.calls + 1) precedence) ks (· ≠ .keyword .elseWord)
      (continued fuel precedence) fun a => a.unlocated = e.unlocated

section

variable {e left right object index : Expr} {ks ls rs os is : List TokenKind} {Q : Expr → Prop}
  {fuel : Nat} {precedence : Precedence} {span : Span} {next : TokenKind → Prop}

theorem Expr.Spelled.length_pos (h : e.Spelled ks) : 0 < ks.length :=
  Nat.zero_lt_of_lt h.calls_lt

theorem Expr.ReadBack.opens (h : e.ReadBack ks) :
    ∃ kind rest, ks = kind :: rest ∧ kind.opensExpr = true := by
  obtain ⟨kind, rest, hks, hopens, -⟩ := h.spelled.opens
  exact ⟨kind, rest, hks, hopens⟩

theorem leads_continued_stop {a : Expr} (ha : Q a) (hfuel : 0 < fuel) :
    Leads (continued fuel precedence a) [] (TokenKind.Stops precedence) pure Q := by
  obtain ⟨fuel, rfl⟩ := Nat.exists_eq_add_of_lt hfuel
  rw [Nat.zero_add, continued]
  refine leads_peek fun kind hkind => ?_
  rw [List.headD_nil]
  cases hcontinuation : Continuation.ofToken? kind with
  | none => exact reads_pure ha
  | some c =>
    show Leads (if precedence.level < c.precedence.level then _ else _) _ _ _ _
    rw [if_neg (Nat.not_lt.mpr (hkind c hcontinuation))]
    exact reads_pure ha

theorem leads_continued_done {a : Expr} (ha : Q a) (hfuel : 0 < fuel) :
    Leads (continued fuel precedence a) [] TokenKind.Closes pure Q :=
  (leads_continued_stop ha hfuel).mono fun _ hkind => TokenKind.stops_of_none hkind.1 precedence

/-- An expression before a token that ends it. -/
theorem Expr.ReadBack.reads (h : e.ReadBack ks)
    (hprecedence : precedence.level < Precedence.call.level) (hfuel : 8 * ks.length ≤ fuel + 3) :
    Reads (Parse.expr fuel precedence) ks TokenKind.Closes fun a => a.unlocated = e.unlocated := by
  have hcalls := h.spelled.calls_lt
  obtain ⟨rest, rfl⟩ : ∃ rest, fuel = rest + e.calls + 1 := ⟨fuel - e.calls - 1, by omega⟩
  exact (h.leads hprecedence (by omega)).trans_last (fun kind hkind => hkind.2)
    fun a ha => leads_continued_done ha (by omega)

/-- An expression that is no call is an operand. -/
theorem Expr.ReadBack.of_operand (hspelled : e.Spelled ks) (hcalls : e.calls = 0)
    (hoperand : ∀ {fuel : Nat}, 8 * ks.length ≤ fuel + 5 →
      Reads (operand (fuel + 1)) ks (· ≠ .keyword .elseWord) fun a => a.unlocated = e.unlocated) :
    e.ReadBack ks := by
  have hlength := hspelled.length_pos
  refine ⟨hspelled, fun {fuel precedence} _ hfuel => ?_⟩
  obtain ⟨fuel, rfl⟩ : ∃ n, fuel = n + 1 := ⟨fuel - 1, by omega⟩
  rw [hcalls, Nat.add_zero, Parse.expr]
  exact (hoperand (by omega)).leads

theorem readBack_identifier {name : String} (h : IsName name) :
    (Expr.identifier name span).ReadBack [.identifier name] := by
  refine .of_operand (.identifier h) rfl fun _ => ?_
  -- `operand` looks at its first token and reads it; applying the rule unfolds it
  exact leads_peek_skip (by simp) fun span => reads_pure rfl

theorem readBack_integer {value : Int64} (h : 0 ≤ value.toInt) :
    (Expr.integer value span).ReadBack [.integer value] := by
  refine .of_operand (.integer h) rfl fun _ => ?_
  exact leads_peek_skip (by simp) fun span => reads_pure rfl

theorem readBack_string {value : String} (h : ∀ c ∈ value.toList, isPlain c = true) :
    (Expr.string value span).ReadBack [.string value] := by
  refine .of_operand (.string h) rfl fun _ => ?_
  exact leads_peek_skip (by simp) fun span => reads_pure rfl

theorem readBack_boolean {value : Bool} : (Expr.boolean value span).ReadBack
    [.keyword (if value then .trueWord else .falseWord)] := by
  refine .of_operand .boolean rfl fun _ => ?_
  refine leads_peek_skip (by simp) fun span => ?_
  cases value with
  | true => exact reads_pure rfl
  | false => exact reads_pure rfl

theorem readBack_null : (Expr.null span).ReadBack [.keyword .nullWord] := by
  refine .of_operand .null rfl fun _ => ?_
  exact leads_peek_skip (by simp) fun span => reads_pure rfl

/-- An expression in parentheses. -/
theorem reads_group (h : Reads (Parse.expr fuel .lowest) ks TokenKind.Closes Q) :
    Reads (operand (fuel + 1)) (.mark .leftParen :: (ks ++ [.mark .rightParen])) next Q := by
  refine leads_peek_skip (by simp) fun span => ?_
  refine h.bind (fun _ _ => ⟨rfl, by simp⟩) fun a ha => ?_
  rw [discard_bind]
  exact leads_expect (by simp) fun _ => reads_pure ha

/-- An operand before a token that ends it. -/
theorem reads_of_operand (h : Reads (operand (fuel + 1)) ks TokenKind.Closes Q) :
    Reads (Parse.expr (fuel + 2) precedence) ks TokenKind.Closes Q := by
  rw [Parse.expr]
  exact h.bind_last fun a ha => leads_continued_done ha (Nat.succ_pos _)

theorem reads_unary {op : UnaryOp} (h : e.ReadBack ks) (hfuel : 8 * ks.length ≤ fuel + 3) :
    Reads (unary (fuel + 1) op span) ks TokenKind.Closes fun a =>
      a.unlocated = .unary op e.unlocated {} := by
  rw [unary]
  refine (h.reads (by decide) hfuel).bind_last fun a ha => ?_
  exact reads_pure (by simp only [Expr.unlocated, ha])

theorem readBack_unary {op : UnaryOp} (h : e.ReadBack ks) : (Expr.unary op e span).ReadBack
    (.mark .leftParen :: .mark op.mark :: (ks ++ [.mark .rightParen])) := by
  refine .of_operand (.unary h.spelled) rfl fun {fuel} hfuel => ?_
  simp only [List.length_cons, List.length_append, List.length_nil] at hfuel
  obtain ⟨fuel, rfl⟩ : ∃ n, fuel = n + 1 + 2 := ⟨fuel - 3, by omega⟩
  -- the operator is the beginning of a second operand, the one between the parentheses
  show Reads _ (_ :: ((.mark op.mark :: ks) ++ [_])) _ _
  refine reads_group (reads_of_operand ?_)
  refine leads_peek_skip (by simp) fun span => ?_
  cases op with
  | negate => exact reads_unary h (by omega)
  | not => exact reads_unary h (by omega)

theorem Continuation.ofToken?_mark (op : BinaryOp) :
    Continuation.ofToken? (.mark op.mark) = some (.operator op) := by
  cases op <;> rfl

/-- An operator and its right operand, after the left one. -/
theorem leads_continued_operator {op : BinaryOp} {a : Expr}
    (hlevel : precedence.level < op.precedence.level)
    (hright : Reads (Parse.expr fuel op.precedence) rs next Q) :
    Leads (continued (fuel + 1) precedence a) (.mark op.mark :: rs) next
      (continued fuel precedence) fun b => ∃ right span, Q right ∧ b = .binary op a right span := by
  rw [continued]
  refine leads_peek_cons ?_
  rw [Continuation.ofToken?_mark]
  show Leads (if precedence.level < op.precedence.level then _ else _) _ _ _ _
  rw [if_pos hlevel, discard_bind]
  refine leads_skip (by simp) fun _ => ?_
  exact hright.bind_last fun b hb => .done ⟨b, _, hb, rfl⟩

/-- An operator between two expressions that ends the expression. -/
theorem reads_continued_operator {op : BinaryOp} {a : Expr} (ha : a.unlocated = left.unlocated)
    (hright : right.ReadBack rs) (hlevel : precedence.level < op.precedence.level)
    (hfuel : 8 * rs.length ≤ fuel + 3) :
    Reads (continued (fuel + 1) precedence a) (.mark op.mark :: rs) TokenKind.Closes fun b =>
      b.unlocated = .binary op left.unlocated right.unlocated {} := by
  have hlength := hright.spelled.length_pos
  have hcall : op.precedence.level < Precedence.call.level := by cases op <;> decide
  refine (leads_continued_operator hlevel (hright.reads hcall hfuel)).trans_last
    (fun _ hkind => hkind) ?_
  rintro _ ⟨b, span, hb, rfl⟩
  exact leads_continued_done (by simp only [Expr.unlocated, ha, hb]) (by omega)

theorem readBack_binary {op : BinaryOp} (hleft : left.ReadBack ls) (hright : right.ReadBack rs) :
    (Expr.binary op left right span).ReadBack
      (.mark .leftParen :: (ls ++ .mark op.mark :: (rs ++ [.mark .rightParen]))) := by
  refine .of_operand (.binary hleft.spelled hright.spelled) rfl fun {fuel} hfuel => ?_
  have hcalls := hleft.spelled.calls_lt
  simp only [List.length_cons, List.length_append, List.length_nil] at hfuel
  -- the calls at the end of the left operand use up fuel before its operator is met
  obtain ⟨fuel, rfl⟩ : ∃ n, fuel = n + 1 + left.calls + 1 := ⟨fuel - left.calls - 2, by omega⟩
  have hgroup : ls ++ .mark op.mark :: (rs ++ [.mark .rightParen]) =
      (ls ++ .mark op.mark :: rs) ++ [.mark .rightParen] := by
    simp
  rw [hgroup]
  refine reads_group ((hleft.leads (by decide) (by omega)).trans (by simp) fun a ha => ?_)
  exact reads_continued_operator ha hright (by cases op <;> decide) (by omega)

/-- An index in brackets, after the object. -/
theorem leads_continued_index {a : Expr} (hlevel : precedence.level < Precedence.index.level)
    (hindex : Reads (Parse.expr fuel .lowest) is (· = .mark .rightBracket) Q) :
    Leads (continued (fuel + 1) precedence a)
      (.mark .leftBracket :: (is ++ [.mark .rightBracket])) next (continued fuel precedence)
      fun b => ∃ index span, Q index ∧ b = .index a index span := by
  rw [continued]
  refine leads_peek_cons ?_
  show Leads (if precedence.level < Precedence.index.level then _ else _) _ _ _ _
  rw [if_pos hlevel, discard_bind]
  refine leads_skip (by simp) fun _ => ?_
  refine hindex.bind (fun _ _ => rfl) fun b hb => ?_
  exact leads_expect (by simp) fun span => .done ⟨b, _, hb, rfl⟩

/-- An index that ends the expression. -/
theorem reads_continued_index {a : Expr} (ha : a.unlocated = object.unlocated)
    (hindex : index.ReadBack is) (hfuel : 8 * is.length ≤ fuel + 3) :
    Reads (continued (fuel + 1) .lowest a) (.mark .leftBracket :: (is ++ [.mark .rightBracket]))
      TokenKind.Closes fun b => b.unlocated = .index object.unlocated index.unlocated {} := by
  have hlength := hindex.spelled.length_pos
  have hreads : Reads (Parse.expr fuel .lowest) is (· = .mark .rightBracket) fun b =>
      b.unlocated = index.unlocated := by
    refine (hindex.reads (by decide) hfuel).mono ?_
    rintro _ rfl
    exact ⟨rfl, by simp⟩
  refine (leads_continued_index (by decide) hreads).trans_last (fun _ hkind => hkind) ?_
  rintro _ ⟨b, span, hb, rfl⟩
  exact leads_continued_done (by simp only [Expr.unlocated, ha, hb]) (by omega)

theorem readBack_index (hobject : object.ReadBack os) (hindex : index.ReadBack is) :
    (Expr.index object index span).ReadBack (.mark .leftParen ::
      (os ++ .mark .leftBracket :: (is ++ [.mark .rightBracket, .mark .rightParen]))) := by
  refine .of_operand (.index hobject.spelled hindex.spelled) rfl fun {fuel} hfuel => ?_
  have hcalls := hobject.spelled.calls_lt
  simp only [List.length_cons, List.length_append, List.length_nil] at hfuel
  obtain ⟨fuel, rfl⟩ : ∃ n, fuel = n + 1 + object.calls + 1 := ⟨fuel - object.calls - 2, by omega⟩
  have hgroup : os ++ .mark .leftBracket :: (is ++ [.mark .rightBracket, .mark .rightParen]) =
      (os ++ .mark .leftBracket :: (is ++ [.mark .rightBracket])) ++ [.mark .rightParen] := by
    simp
  rw [hgroup]
  refine reads_group ((hobject.leads (by decide) (by omega)).trans (by simp) fun a ha => ?_)
  exact reads_continued_index ha hindex (by omega)

end

/-! ### Lists -/

@[simp]
theorem unlocatedAll_eq_map (es : List Expr) : unlocatedAll es = es.map Expr.unlocated := by
  induction es with
  | nil => rfl
  | cons e rest ih => rw [unlocatedAll, ih, List.map_cons]

/-- One more item was found. -/
theorem map_push_append {α β : Type} {f : α → β} {a b : α} (h : f a = f b) (found : Array α)
    (rest : List α) :
    (found.toList ++ b :: rest).map f = ((found.push a).toList ++ rest).map f := by
  simp [h]

@[simp]
theorem separated_cons_cons (ks ks' : List TokenKind) (items : List (List TokenKind)) :
    separated (ks :: ks' :: items) = ks ++ .mark .comma :: separated (ks' :: items) := by
  simp [separated, List.intercalate]

@[simp]
theorem separated_singleton (ks : List TokenKind) : separated [ks] = ks := by
  simp [separated, List.intercalate]

theorem separated_opens {ks : List TokenKind} {P : TokenKind → Prop}
    (h : ∃ kind rest, ks = kind :: rest ∧ P kind) (items : List (List TokenKind)) :
    ∃ kind rest, separated (ks :: items) = kind :: rest ∧ P kind := by
  obtain ⟨kind, rest, rfl, hopens⟩ := h
  cases items with
  | nil => exact ⟨kind, rest, separated_singleton _, hopens⟩
  | cons ks' items => exact ⟨kind, _, separated_cons_cons _ _ _, hopens⟩

/-- A mark that ends a list of expressions. -/
structure Mark.EndsList (closer : Mark) : Prop where
  closes : (TokenKind.mark closer).Closes
  ne_comma : closer ≠ .comma
  opensExpr : (TokenKind.mark closer).opensExpr = false

/-- The parser reads the expression from tokens of the kinds `ks` in a list that ends with the mark
`closer`, with `perToken` units of fuel for each token and some that are `extra`. -/
structure Expr.IsItem (closer : Mark) (perToken extra : Nat) (e : Expr) (ks : List TokenKind) :
    Prop where
  opens : ∃ kind rest, ks = kind :: rest ∧ kind ≠ .mark closer
  reads : ∀ {fuel : Nat}, perToken * ks.length + extra ≤ fuel →
    Reads (Parse.expr fuel .lowest) ks (fun kind => kind = .mark .comma ∨ kind = .mark closer)
      fun a => a.unlocated = e.unlocated

section

variable {es : List Expr} {ks tail : List TokenKind} {items : List (List TokenKind)}
  {fuel perToken extra : Nat} {closer : Mark} {next : TokenKind → Prop}

/-- The first item of a list is none of the marks that end it. -/
theorem headD_separated_ne {e : Expr} (h : e.IsItem closer perToken extra ks) (kind : TokenKind) :
    (separated (ks :: items) ++ tail).headD kind ≠ .mark closer := by
  obtain ⟨first, more, hfirst, hne⟩ := separated_opens h.opens items
  rw [hfirst]
  exact hne

theorem reads_items (hcloser : closer ≠ .comma) (htail : tail = [] ∨ tail = [.mark .comma])
    (hperToken : 0 < perToken) (hes : List.Forall₂ (Expr.IsItem closer perToken extra) es items) :
    ∀ {fuel : Nat} {found : Array Expr}, es ≠ [] →
      perToken * (separated items).length + extra < fuel →
      Reads (Parse.items fuel closer found) (separated items ++ (tail ++ [.mark closer])) next
        fun a => a.map Expr.unlocated = (found.toList ++ es).map Expr.unlocated := by
  induction hes with
  | nil => exact fun h => absurd rfl h
  | @cons e ks rest items he hrest ih =>
    intro fuel found _ hfuel
    obtain ⟨fuel, rfl⟩ : ∃ n, fuel = n + 1 := ⟨fuel - 1, by omega⟩
    rw [Parse.items]
    cases hrest with
    | nil =>
      rw [separated_singleton] at hfuel ⊢
      obtain rfl | rfl := htail
      · refine (he.reads (by omega)).bind (fun _ _ => .inr rfl) fun a ha => ?_
        refine leads_not_accept (fun _ _ => by simp [hcloser]) ?_
        simp only [Bool.false_eq_true, if_false, pure_bind, discard_bind]
        exact leads_expect (by simp) fun _ => reads_pure (by simp [ha])
      · refine (he.reads (by omega)).bind (fun _ _ => .inl rfl) fun a ha => ?_
        refine leads_accept (by simp) ?_
        simp only [if_true, pure_bind]
        refine leads_peek_cons ?_
        simp only [ne_eq, not_true_eq_false, decide_false, Bool.false_eq_true, if_false,
          discard_bind]
        exact leads_expect (by simp) fun _ => reads_pure (by simp [ha])
    | @cons e' ks' rest items he' hrest =>
      rw [separated_cons_cons, List.length_append, List.length_cons, Nat.mul_add,
        Nat.mul_succ] at hfuel
      rw [separated_cons_cons, List.append_assoc, List.cons_append]
      refine (he.reads (by omega)).bind (fun _ _ => .inl rfl) fun a ha => ?_
      refine leads_accept (by simp) ?_
      simp only [if_true, pure_bind]
      -- behind a comma the list may end, but here another item begins
      refine leads_peek fun kind hkind => ?_
      rw [if_pos (decide_eq_true (headD_separated_ne he' kind)), map_push_append ha]
      exact (ih (List.cons_ne_nil _ _) (by omega)).mono fun _ h => h ▸ hkind

/-- A list with what ends it. A comma may stand behind its last item. -/
theorem reads_list (hcloser : closer ≠ .comma) (htail : tail = [] ∨ tail = [.mark .comma] ∧ es ≠ [])
    (hperToken : 0 < perToken) (hes : List.Forall₂ (Expr.IsItem closer perToken extra) es items)
    (hfuel : perToken * (separated items).length + extra + 2 ≤ fuel) :
    Reads (list fuel closer) (separated items ++ (tail ++ [.mark closer])) next fun a =>
      unlocatedAll a = unlocatedAll es := by
  obtain ⟨fuel, rfl⟩ : ∃ n, fuel = n + 1 := ⟨fuel - 1, by omega⟩
  rw [list]
  cases hes with
  | nil =>
    obtain rfl | ⟨-, hes⟩ := htail
    · exact leads_accept (by simp) (reads_pure rfl)
    · exact absurd rfl hes
  | @cons e ks rest items he hrest =>
    refine leads_not_accept (fun kind _ => headD_separated_ne he kind) ?_
    simp only [unlocatedAll_eq_map]
    exact reads_items hcloser (htail.imp_right And.left) hperToken (.cons he hrest)
      (List.cons_ne_nil _ _) (by omega)

/-- An expression that is read back is an item of every list. -/
theorem Expr.ReadBack.isItem {e : Expr} (hcloser : closer.EndsList) (h : e.ReadBack ks) :
    e.IsItem closer 8 0 ks := by
  refine ⟨?_, fun hfuel => (h.reads (by decide) (by omega)).mono ?_⟩
  · obtain ⟨kind, rest, hks, hopens⟩ := h.opens
    refine ⟨kind, rest, hks, ?_⟩
    rintro rfl
    rw [hcloser.opensExpr] at hopens
    exact Bool.false_ne_true hopens
  · rintro _ (rfl | rfl)
    · exact ⟨rfl, by simp⟩
    · exact hcloser.closes

theorem reads_list_readBack (hcloser : closer.EndsList) (hes : List.Forall₂ Expr.ReadBack es items)
    (hfuel : 8 * (separated items).length + 2 ≤ fuel) :
    Reads (list fuel closer) (separated items ++ [.mark closer]) next fun a =>
      unlocatedAll a = unlocatedAll es :=
  reads_list hcloser.ne_comma (.inl rfl) (Nat.zero_lt_succ 7)
    (hes.imp fun _ _ he => he.isItem hcloser) hfuel

/-- The arguments of a call, after the callee. -/
theorem leads_continued_call {precedence : Precedence} {a : Expr} {Q : List Expr → Prop}
    (hlevel : precedence.level < Precedence.call.level)
    (hargs : Reads (list fuel .rightParen) ks next Q) :
    Leads (continued (fuel + 1) precedence a) (.mark .leftParen :: ks) next
      (continued fuel precedence) fun b => ∃ args span, Q args ∧ b = .call a args span := by
  rw [continued]
  refine leads_peek_cons ?_
  show Leads (if precedence.level < Precedence.call.level then _ else _) _ _ _ _
  rw [if_pos hlevel, discard_bind]
  refine leads_skip (by simp) fun _ => ?_
  refine hargs.bind_last fun args hargs => ?_
  exact leads_lastSpan fun span => .done ⟨args, _, hargs, rfl⟩

theorem endsList_rightParen : Mark.rightParen.EndsList :=
  ⟨⟨rfl, by simp⟩, by simp, rfl⟩

theorem endsList_rightBracket : Mark.rightBracket.EndsList :=
  ⟨⟨rfl, by simp⟩, by simp, rfl⟩

theorem readBack_array {span : Span} (hspelled : ExprsSpelled es items)
    (hes : List.Forall₂ Expr.ReadBack es items) : (Expr.array es span).ReadBack
      (.mark .leftBracket :: (separated items ++ [.mark .rightBracket])) := by
  refine .of_operand (.array hspelled) rfl fun {fuel} hfuel => ?_
  simp only [List.length_cons, List.length_append, List.length_nil] at hfuel
  refine leads_peek_skip (by simp) fun _ => ?_
  refine (reads_list_readBack endsList_rightBracket hes (by omega)).bind_last fun a ha => ?_
  exact leads_lastSpan fun _ => reads_pure (by simp only [Expr.unlocated, ha])

/-- A call is met after its callee was read, when the parser looks for what continues it. -/
theorem readBack_call {callee : Expr} {span : Span} {ks : List TokenKind}
    (hcallee : callee.ReadBack ks) (hspelled : ExprsSpelled es items)
    (hes : List.Forall₂ Expr.ReadBack es items) : (Expr.call callee es span).ReadBack
      (ks ++ .mark .leftParen :: (separated items ++ [.mark .rightParen])) := by
  refine ⟨.call hcallee.spelled hspelled, fun {fuel precedence} hprecedence hfuel => ?_⟩
  have hcalls := hcallee.spelled.calls_lt
  simp only [Expr.calls, List.length_cons, List.length_append, List.length_nil] at hfuel
  have hshift : fuel + (callee.calls + 1) + 1 = fuel + 1 + callee.calls + 1 := by omega
  rw [Expr.calls, hshift]
  refine (hcallee.leads hprecedence (by omega)).trans (by simp) fun a ha => ?_
  refine (leads_continued_call hprecedence (reads_list_readBack endsList_rightParen hes
    (by omega))).trans_last (fun _ hkind => hkind) ?_
  rintro _ ⟨args, span, hargs, rfl⟩
  exact .done (by simp only [Expr.unlocated, ha, hargs])

end

/-! ### Hashes -/

@[simp]
theorem unlocatedEntries_eq_map (entries : List (Expr × Expr)) :
    unlocatedEntries entries = entries.map (Prod.map Expr.unlocated Expr.unlocated) := by
  induction entries with
  | nil => rfl
  | cons entry rest ih => rw [unlocatedEntries, ih, List.map_cons, Prod.map]

/-- The parser reads key and value of an entry. -/
def EntryReadBack (entry : Expr × Expr) (ks : List TokenKind) : Prop :=
  ∃ keys values, ks = keys ++ .mark .colon :: values ∧ entry.1.ReadBack keys ∧
    entry.2.ReadBack values

section

variable {entry : Expr × Expr} {entries : List (Expr × Expr)} {ks : List TokenKind}
  {items : List (List TokenKind)} {fuel : Nat}

theorem EntryReadBack.opens (h : EntryReadBack entry ks) :
    ∃ kind rest, ks = kind :: rest ∧ kind.opensExpr = true := by
  obtain ⟨keys, values, rfl, hkey, -⟩ := h
  obtain ⟨kind, rest, rfl, hopens⟩ := hkey.opens
  exact ⟨kind, _, rfl, hopens⟩

theorem EntryReadBack.leads {β : Type} {f : Expr → Expr → Parse β} (h : EntryReadBack entry ks)
    (hfuel : 8 * ks.length ≤ fuel + 3) :
    Leads (do
        let key ← Parse.expr fuel .lowest
        discard <| expect (.mark .colon) .hashColon
        let value ← Parse.expr fuel .lowest
        f key value)
      ks TokenKind.Closes (fun a : Expr × Expr => f a.1 a.2) fun a =>
        a.map Expr.unlocated Expr.unlocated = entry.map Expr.unlocated Expr.unlocated := by
  obtain ⟨keys, values, rfl, hkey, hvalue⟩ := h
  rw [List.length_append, List.length_cons] at hfuel
  refine (hkey.reads (by decide) (by omega)).bind (fun _ _ => ⟨rfl, by simp⟩) fun key hkey' => ?_
  rw [discard_bind]
  refine leads_expect (by simp) fun _ => ?_
  refine (hvalue.reads (by decide) (by omega)).bind_last fun value hvalue' => ?_
  refine Leads.done (k := fun a : Expr × Expr => f a.1 a.2) (a := (key, value)) ?_
  exact Prod.ext hkey' hvalue'

theorem reads_entries (h : List.Forall₂ EntryReadBack entries items) :
    ∀ {fuel : Nat} {found : Array (Expr × Expr)}, 8 * (separated items).length + 1 ≤ fuel →
      Reads (Parse.entries fuel found) (separated items) (· = .mark .rightBrace) fun a =>
        a.map (Prod.map Expr.unlocated Expr.unlocated) =
          (found.toList ++ entries).map (Prod.map Expr.unlocated Expr.unlocated) := by
  induction h with
  | nil =>
    intro fuel found hfuel
    obtain ⟨fuel, rfl⟩ : ∃ n, fuel = n + 1 := ⟨fuel - 1, by omega⟩
    rw [Parse.entries]
    refine leads_peek fun kind hkind => ?_
    subst hkind
    exact reads_pure (by simp)
  | @cons entry ks rest items hentry hrest ih =>
    intro fuel found hfuel
    obtain ⟨fuel, rfl⟩ : ∃ n, fuel = n + 1 := ⟨fuel - 1, by omega⟩
    obtain ⟨first, more, hfirst, hopens⟩ := separated_opens hentry.opens items
    rw [Parse.entries]
    refine leads_peek fun kind hkind => ?_
    subst hkind
    rw [if_neg (by rw [hfirst]; rintro rfl; cases hopens)]
    cases hrest with
    | nil =>
      rw [separated_singleton] at hfuel ⊢
      refine (hentry.leads (by omega)).trans_last (fun _ h => h ▸ ⟨rfl, by simp⟩) fun a ha => ?_
      refine leads_not_accept (fun _ h => by simp [h]) ?_
      exact reads_pure (by simp [ha])
    | @cons entry' ks' rest items hentry' hrest =>
      rw [separated_cons_cons, List.length_append, List.length_cons] at hfuel
      rw [separated_cons_cons]
      refine (hentry.leads (by omega)).trans (fun _ _ => ⟨rfl, by simp⟩) fun a ha => ?_
      refine leads_accept (by simp) ?_
      rw [map_push_append ha]
      exact ih (by omega)

theorem readBack_hash {span : Span} (hspelled : EntriesSpelled entries items)
    (h : List.Forall₂ EntryReadBack entries items) : (Expr.hash entries span).ReadBack
      (.mark .leftBrace :: (separated items ++ [.mark .rightBrace])) := by
  refine .of_operand (.hash hspelled) rfl fun {fuel} hfuel => ?_
  simp only [List.length_cons, List.length_append, List.length_nil] at hfuel
  refine leads_peek_skip (by simp) fun _ => ?_
  refine (reads_entries h (by omega)).bind (fun _ _ => rfl) fun a ha => ?_
  refine leads_expect (by simp) fun _ => reads_pure ?_
  simpa [Expr.unlocated] using ha

end

/-! ### Blocks -/

/-- The parser reads the block. -/
def Block.ReadBack (block : Block) (ks : List TokenKind) : Prop :=
  ∀ fuel, 8 * ks.length ≤ fuel + 14 →
    Reads (Parse.block fuel) ks (fun _ => True) fun a => a.unlocated = block.unlocated

@[simp]
theorem paramKinds_cons_cons (param param' : Param) (rest : List Param) :
    paramKinds (param :: param' :: rest) =
      .identifier param.name :: .mark .comma :: paramKinds (param' :: rest) := by
  simp [paramKinds]

@[simp]
theorem paramKinds_singleton (param : Param) : paramKinds [param] = [.identifier param.name] := by
  simp [paramKinds]

theorem paramKinds_cons (param : Param) (params : List Param) :
    ∃ rest, paramKinds (param :: params) = .identifier param.name :: rest := by
  cases params with
  | nil => exact ⟨_, paramKinds_singleton param⟩
  | cons param' rest => exact ⟨_, paramKinds_cons_cons param param' rest⟩

theorem length_le_paramKinds : ∀ params : List Param, params.length ≤ (paramKinds params).length
  | [] => Nat.zero_le _
  | [param] => by simp
  | param :: param' :: rest => by
    have hle := length_le_paramKinds (param' :: rest)
    simp only [paramKinds_cons_cons, List.length_cons] at hle ⊢
    omega

theorem reads_params {next : TokenKind → Prop} : ∀ {params : List Param} {fuel : Nat}
    {found : Array Param}, params ≠ [] → params.length ≤ fuel →
    Reads (Parse.params fuel found) (paramKinds params ++ [.mark .rightParen]) next fun a =>
      a.map Param.unlocated = (found.toList ++ params).map Param.unlocated
  | [], _, _, hparams, _ => absurd rfl hparams
  | param :: rest, 0, _, _, hfuel => absurd hfuel (Nat.not_succ_le_zero _)
  | [param], fuel + 1, found, _, _ => by
    rw [Parse.params, paramKinds_singleton]
    refine leads_expectName fun _ => ?_
    refine leads_not_accept (by simp) ?_
    simp only [Bool.false_eq_true, if_false, discard_bind]
    exact leads_expect (by simp) fun _ => reads_pure (by simp [Param.unlocated])
  | param :: param' :: rest, fuel + 1, found, _, hfuel => by
    rw [Parse.params, paramKinds_cons_cons]
    refine leads_expectName fun span => ?_
    refine leads_accept (by simp) ?_
    have hparam : Param.unlocated ⟨param.name, span⟩ = param.unlocated := rfl
    rw [map_push_append hparam]
    exact reads_params (List.cons_ne_nil _ _) (Nat.le_of_succ_le_succ hfuel)

section

variable {params : List Param} {body thenBranch : Block} {elseBranch : Option Block}
  {condition : Expr} {ks cs ts es : List TokenKind} {span : Span} {fuel : Nat}

theorem reads_function (hbody : body.ReadBack ks)
    (hfuel : 8 * (ks.length + (paramKinds params).length) ≤ fuel) :
    Reads (Parse.function (fuel + 1) span)
      (.mark .leftParen :: (paramKinds params ++ .mark .rightParen :: ks)) (fun _ => True) fun a =>
        a.unlocated = .function none (params.map Param.unlocated) body.unlocated {} := by
  have hlength := length_le_paramKinds params
  have hrest : ∀ names : List Param, names.map Param.unlocated = params.map Param.unlocated →
      Reads (Parse.block fuel >>= fun body =>
          pure (Expr.function none names body (span.join body.span)))
        ks (fun _ => True) fun a =>
          a.unlocated = .function none (params.map Param.unlocated) body.unlocated {} := by
    intro names hnames
    refine (hbody fuel (by omega)).bind_last fun b hb => ?_
    exact reads_pure (by simp only [Expr.unlocated, hnames, hb])
  rw [Parse.function, discard_bind]
  refine leads_expect (by simp) fun _ => ?_
  cases params with
  | nil =>
    refine leads_accept (by simp) ?_
    simp only [if_true, pure_bind]
    exact hrest [] rfl
  | cons param params =>
    obtain ⟨rest, hfirst⟩ := paramKinds_cons param params
    refine leads_not_accept (fun _ _ => by simp [hfirst]) ?_
    rw [List.append_cons]
    have hread : Reads (Parse.params fuel #[]) _ (fun _ => True) _ :=
      reads_params (List.cons_ne_nil param params) (by omega)
    exact hread.bind (fun _ _ => trivial) hrest

theorem readBack_function (hparams : ∀ param ∈ params, IsName param.name)
    (hspelled : body.Spelled ks) (hbody : body.ReadBack ks) :
    (Expr.function none params body span).ReadBack
      (.keyword .fnWord :: .mark .leftParen :: (paramKinds params ++ .mark .rightParen :: ks)) := by
  refine .of_operand (.function hparams hspelled) rfl fun {fuel} hfuel => ?_
  simp only [List.length_cons, List.length_append] at hfuel
  obtain ⟨fuel, rfl⟩ : ∃ n, fuel = n + 1 := ⟨fuel - 1, by omega⟩
  refine leads_peek_skip (by simp) fun _ => ?_
  exact (reads_function hbody (by omega)).mono fun _ _ => trivial

/-- The parser reads the `else` part of a conditional, unless another one follows. -/
def ElseReadBack (elseBranch : Option Block) (ks : List TokenKind) : Prop :=
  ∀ fuel, 8 * ks.length + 1 ≤ fuel →
    Reads (alternative fuel) ks (· ≠ .keyword .elseWord) fun a =>
      unlocatedElse a = unlocatedElse elseBranch

theorem elseReadBack_none : ElseReadBack none [] := by
  intro fuel hfuel
  obtain ⟨fuel, rfl⟩ : ∃ n, fuel = n + 1 := ⟨fuel - 1, by omega⟩
  rw [alternative]
  refine leads_not_accept (fun _ h => h) ?_
  exact reads_pure rfl

theorem elseReadBack_some (hspelled : body.Spelled ks) (hbody : body.ReadBack ks) :
    ElseReadBack (some body) (.keyword .elseWord :: ks) := by
  intro fuel hfuel
  rw [List.length_cons] at hfuel
  obtain ⟨fuel, rfl⟩ : ∃ n, fuel = n + 1 := ⟨fuel - 1, by omega⟩
  rw [alternative]
  refine leads_accept (by simp) ?_
  -- a block follows the `else`, not a second `if`
  obtain ⟨rest, hks⟩ : ∃ rest, ks = .mark .leftBrace :: rest := by
    cases hspelled
    exact ⟨_, rfl⟩
  refine leads_peek fun kind _ => ?_
  rw [if_neg (by simp [hks])]
  refine ((hbody fuel (by omega)).mono fun _ _ => trivial).bind_last fun a ha => ?_
  exact reads_pure (by simp only [unlocatedElse, ha])

theorem reads_conditional (hcondition : condition.ReadBack cs) (hthen : thenBranch.ReadBack ts)
    (helse : ElseReadBack elseBranch es) (hcs : 8 * cs.length ≤ fuel + 3)
    (hts : 8 * ts.length ≤ fuel + 14) (hes : 8 * es.length + 1 ≤ fuel) :
    Reads (Parse.conditional (fuel + 1) span)
      (.mark .leftParen :: (cs ++ .mark .rightParen :: (ts ++ es))) (· ≠ .keyword .elseWord)
        fun a => a.unlocated = .conditional condition.unlocated thenBranch.unlocated
          (unlocatedElse elseBranch) {} := by
  rw [Parse.conditional, discard_bind]
  refine leads_expect (by simp) fun _ => ?_
  refine (hcondition.reads (by decide) hcs).bind (fun _ _ => ⟨rfl, by simp⟩) fun a ha => ?_
  rw [discard_bind]
  refine leads_expect (by simp) fun _ => ?_
  refine (hthen fuel hts).bind (fun _ _ => trivial) fun b hb => ?_
  refine (helse fuel hes).bind_last fun c hc => ?_
  exact leads_lastSpan fun _ => reads_pure (by simp only [Expr.unlocated, ha, hb, hc])

theorem readBack_conditional (hspelled : (Expr.conditional condition thenBranch elseBranch
    span).Spelled (.keyword .ifWord :: .mark .leftParen :: (cs ++ .mark .rightParen :: (ts ++ es))))
    (hcondition : condition.ReadBack cs) (hthen : thenBranch.ReadBack ts)
    (helse : ElseReadBack elseBranch es) :
    (Expr.conditional condition thenBranch elseBranch span).ReadBack
      (.keyword .ifWord :: .mark .leftParen :: (cs ++ .mark .rightParen :: (ts ++ es))) := by
  refine .of_operand hspelled rfl fun {fuel} hfuel => ?_
  simp only [List.length_cons, List.length_append] at hfuel
  obtain ⟨fuel, rfl⟩ : ∃ n, fuel = n + 1 := ⟨fuel - 1, by omega⟩
  refine leads_peek_skip (by simp) fun _ => ?_
  exact reads_conditional hcondition hthen helse (by omega) (by omega) (by omega)

end

/-! ### Statements -/

/-- Ends a list of statements. -/
def TokenKind.EndsStatements (kind : TokenKind) : Prop :=
  kind = .endOfInput ∨ kind = .mark .rightBrace

theorem TokenKind.EndsStatements.closes {kind : TokenKind} (h : kind.EndsStatements) :
    kind.Closes := by
  obtain rfl | rfl := h
  · exact ⟨rfl, by simp⟩
  · exact ⟨rfl, by simp⟩

/-- The parser reads the statement, whatever follows it. -/
structure Stmt.ReadBack (s : Stmt) (ks : List TokenKind) : Prop where
  opens : ∃ kind rest, ks = kind :: rest ∧ ¬kind.EndsStatements
  reads : ∀ fuel, 8 * ks.length ≤ fuel + 1 →
    Reads (statement fuel) ks (fun _ => True) fun a => a.unlocated = s.unlocated

section

variable {name : String} {value e : Expr} {span : Span} {ks : List TokenKind} {fuel : Nat}

theorem Expr.unlocated_named (e : Expr) (name : String) :
    (e.named name).unlocated = e.unlocated.named name := by
  cases e <;> rfl

theorem reads_declaration {mutability : Mutability} (hnamed : value.named name = value)
    (hvalue : value.ReadBack ks) (hfuel : 8 * ks.length ≤ fuel + 3) :
    Reads (declaration (fuel + 1) mutability)
      (.keyword mutability.keyword :: .identifier name :: .mark .equal ::
        (ks ++ [.mark .semicolon])) (fun _ => True) fun a =>
        a.unlocated = .declare mutability name value.unlocated {} := by
  rw [declaration]
  refine leads_skip (by simp) fun _ => ?_
  refine leads_expectName fun _ => ?_
  rw [discard_bind]
  refine leads_expect (by simp) fun _ => ?_
  refine (hvalue.reads (by decide) hfuel).bind (fun _ _ => ⟨rfl, by simp⟩) fun a ha => ?_
  rw [discard_bind]
  refine leads_accept (by simp) (leads_lastSpan fun _ => reads_pure ?_)
  rw [Stmt.unlocated, Expr.unlocated_named, ha, ← Expr.unlocated_named, hnamed]

theorem readBack_declare {mutability : Mutability} (hnamed : value.named name = value)
    (hvalue : value.ReadBack ks) : (Stmt.declare mutability name value span).ReadBack
      (.keyword mutability.keyword :: .identifier name :: .mark .equal ::
        (ks ++ [.mark .semicolon])) := by
  refine ⟨⟨_, _, rfl, by simp [TokenKind.EndsStatements]⟩, fun fuel hfuel => ?_⟩
  simp only [List.length_cons, List.length_append] at hfuel
  obtain ⟨fuel, rfl⟩ : ∃ n, fuel = n + 1 + 1 := ⟨fuel - 2, by omega⟩
  rw [statement]
  refine leads_peek_cons ?_
  cases mutability with
  | constant | mutable => exact reads_declaration hnamed hvalue (by omega)

theorem readBack_assign (hvalue : value.ReadBack ks) : (Stmt.assign name value span).ReadBack
    (.identifier name :: .mark .equal :: (ks ++ [.mark .semicolon])) := by
  refine ⟨⟨_, _, rfl, by simp [TokenKind.EndsStatements]⟩, fun fuel hfuel => ?_⟩
  simp only [List.length_cons, List.length_append] at hfuel
  obtain ⟨fuel, rfl⟩ : ∃ n, fuel = n + 1 := ⟨fuel - 1, by omega⟩
  rw [statement]
  refine leads_peek_cons (leads_atAssignment ?_)
  refine leads_skip (by simp) fun _ => ?_
  rw [discard_bind]
  refine leads_skip (by simp) fun _ => ?_
  refine (hvalue.reads (by decide) (by omega)).bind (fun _ _ => ⟨rfl, by simp⟩) fun a ha => ?_
  rw [discard_bind]
  refine leads_accept (by simp) (leads_lastSpan fun _ => reads_pure ?_)
  rw [Stmt.unlocated, Stmt.unlocated, ha]

theorem readBack_retNone : (Stmt.ret none span).ReadBack
    [.keyword .returnWord, .mark .semicolon] := by
  refine ⟨⟨_, _, rfl, by simp [TokenKind.EndsStatements]⟩, fun fuel hfuel => ?_⟩
  simp only [List.length_cons] at hfuel
  obtain ⟨fuel, rfl⟩ : ∃ n, fuel = n + 1 + 1 := ⟨fuel - 2, by omega⟩
  rw [statement]
  refine leads_peek_cons (leads_skip (by simp) fun _ => ?_)
  rw [returned, bind_assoc]
  refine leads_peek_cons ?_
  rw [if_pos (.inl rfl), pure_bind, discard_bind]
  exact leads_accept (by simp) (leads_lastSpan fun _ => reads_pure rfl)

theorem readBack_ret (hvalue : value.ReadBack ks) : (Stmt.ret (some value) span).ReadBack
    (.keyword .returnWord :: (ks ++ [.mark .semicolon])) := by
  refine ⟨⟨_, _, rfl, by simp [TokenKind.EndsStatements]⟩, fun fuel hfuel => ?_⟩
  simp only [List.length_cons, List.length_append] at hfuel
  obtain ⟨fuel, rfl⟩ : ∃ n, fuel = n + 1 + 1 := ⟨fuel - 2, by omega⟩
  rw [statement]
  refine leads_peek_cons (leads_skip (by simp) fun _ => ?_)
  rw [returned, bind_assoc]
  refine leads_peek fun kind _ => ?_
  obtain ⟨first, rest, hfirst, hopens⟩ := hvalue.opens
  -- no expression begins with one of the tokens that end a return without a value
  have hne : ¬((ks ++ [TokenKind.mark .semicolon]).headD kind = .mark .semicolon ∨
      (ks ++ [TokenKind.mark .semicolon]).headD kind = .mark .rightBrace ∨
      (ks ++ [TokenKind.mark .semicolon]).headD kind = .endOfInput) := by
    rw [hfirst]
    rintro (rfl | rfl | rfl) <;> cases hopens
  rw [if_neg hne, bind_assoc]
  refine (hvalue.reads (by decide) (by omega)).bind (fun _ _ => ⟨rfl, by simp⟩) fun a ha => ?_
  rw [pure_bind, discard_bind]
  refine leads_accept (by simp) (leads_lastSpan fun _ => reads_pure ?_)
  rw [Stmt.unlocated, Stmt.unlocated, ha]

theorem reads_expressionStatement (h : e.ReadBack ks) (hfuel : 8 * ks.length ≤ fuel + 3) :
    Reads (expressionStatement (fuel + 1)) ks TokenKind.EndsStatements fun a =>
      a.unlocated = .expression e.unlocated {} := by
  rw [expressionStatement]
  refine ((h.reads (by decide) hfuel).mono fun _ => TokenKind.EndsStatements.closes).bind_last
    fun a ha => ?_
  rw [discard_bind]
  refine leads_not_accept ?_ (reads_pure ?_)
  · rintro _ (rfl | rfl) <;> simp
  · rw [Stmt.unlocated, ha]

/-- An expression at the end of the statements. -/
theorem reads_statement_expression (h : e.ReadBack ks) (hfuel : 8 * ks.length ≤ fuel + 1) :
    Reads (statement fuel) ks TokenKind.EndsStatements fun a =>
      a.unlocated = .expression e.unlocated {} := by
  have hlength := h.spelled.length_pos
  obtain ⟨fuel, rfl⟩ : ∃ n, fuel = n + 1 + 1 := ⟨fuel - 2, by omega⟩
  have hread : Reads (expressionStatement (fuel + 1)) ks _ _ :=
    reads_expressionStatement h (by omega)
  obtain ⟨first, rest, rfl, hopens, hname⟩ := h.spelled.opens
  rw [statement]
  refine leads_peek_cons ?_
  cases first with
  | identifier name =>
    -- a name is no assignment unless an equal sign follows
    refine leads_not_atAssignment (fun kind hkind => ?_) hread
    cases rest with
    | nil => rintro rfl; exact absurd hkind (by simp [TokenKind.EndsStatements])
    | cons next rest => simpa using hname name rfl
  | keyword word =>
    cases word with
    | fnWord | ifWord | trueWord | falseWord | nullWord => exact hread
    | letWord | varWord | elseWord | returnWord => cases hopens
  | mark | integer | string => exact hread
  | float | endOfInput => cases hopens

/-- The parser reads the statements up to the mark `closer`, or up to the end of input. -/
def StmtsReadBack (statements : List Stmt) (ks : List TokenKind) : Prop :=
  ∀ (fuel : Nat) (closer : Option Mark) (found : Array Stmt),
    (closer.elim .endOfInput TokenKind.mark).EndsStatements → 8 * ks.length + 1 ≤ fuel →
    Reads (Parse.statements fuel closer found) ks (· = closer.elim .endOfInput TokenKind.mark)
      fun a => a.map Stmt.unlocated = (found.toList ++ statements).map Stmt.unlocated

theorem reads_statements_done {closer : Option Mark} {found : Array Stmt} {Q : List Stmt → Prop}
    (hfound : Q found.toList) : Reads (Parse.statements (fuel + 1) closer found) []
      (· = closer.elim .endOfInput TokenKind.mark) Q := by
  rw [Parse.statements]
  refine leads_peek fun kind hkind => ?_
  have hend : kind = .endOfInput ∨ closer.map TokenKind.mark = some kind := by
    subst hkind
    cases closer with
    | none => exact .inl rfl
    | some closer => exact .inr rfl
  rw [List.headD_nil, if_pos hend]
  exact reads_pure hfound

/-- One statement of a list. -/
theorem leads_statements {closer : Option Mark} {found : Array Stmt} {P : Stmt → Prop}
    {next : TokenKind → Prop} (hcloser : (closer.elim .endOfInput TokenKind.mark).EndsStatements)
    (hopens : ∃ kind rest, ks = kind :: rest ∧ ¬kind.EndsStatements)
    (h : Reads (statement fuel) ks next P) :
    Leads (Parse.statements (fuel + 1) closer found) ks next
      (fun a => Parse.statements fuel closer (found.push a)) P := by
  obtain ⟨kind, rest, rfl, hkind⟩ := hopens
  rw [Parse.statements]
  refine leads_peek_cons ?_
  have hgo : ¬(kind = .endOfInput ∨ closer.map TokenKind.mark = some kind) := by
    rintro (rfl | hclose)
    · exact hkind (.inl rfl)
    · cases closer with
      | none => cases hclose
      | some closer =>
        obtain rfl := Option.some.inj hclose
        exact hkind hcloser
  rw [if_neg hgo]
  exact h.leads

theorem stmtsReadBack_nil : StmtsReadBack [] [] := by
  intro fuel closer found _ hfuel
  obtain ⟨fuel, rfl⟩ : ∃ n, fuel = n + 1 := ⟨fuel - 1, by omega⟩
  exact reads_statements_done (by simp)

theorem stmtsReadBack_expression (h : e.ReadBack ks) :
    StmtsReadBack [.expression e span] ks := by
  intro fuel closer found hcloser hfuel
  have hlength := h.spelled.length_pos
  obtain ⟨fuel, rfl⟩ : ∃ n, fuel = n + 1 + 1 := ⟨fuel - 2, by omega⟩
  obtain ⟨first, rest, hfirst, hopens⟩ := h.opens
  have hne : ¬first.EndsStatements := by rintro (rfl | rfl) <;> cases hopens
  refine (leads_statements hcloser ⟨first, rest, hfirst, hne⟩
    (reads_statement_expression h (by omega))).trans_last (fun _ hkind => hkind ▸ hcloser)
      fun a ha => ?_
  exact reads_statements_done (by simp [ha, Stmt.unlocated])

theorem stmtsReadBack_cons {s : Stmt} {rest : List Stmt} {ks' : List TokenKind}
    (hs : s.ReadBack ks) (hrest : StmtsReadBack rest ks') :
    StmtsReadBack (s :: rest) (ks ++ ks') := by
  intro fuel closer found hcloser hfuel
  obtain ⟨fuel, rfl⟩ : ∃ n, fuel = n + 1 := ⟨fuel - 1, by omega⟩
  obtain ⟨first, more, hfirst, hopens⟩ := hs.opens
  rw [List.length_append] at hfuel
  have hlength : 0 < ks.length := hfirst ▸ Nat.succ_pos _
  refine (leads_statements hcloser hs.opens (hs.reads fuel (by omega))).trans
    (fun _ _ => trivial) fun a ha => ?_
  rw [map_push_append ha]
  exact hrest fuel closer _ hcloser (by omega)

@[simp]
theorem unlocatedStatements_eq_map (statements : List Stmt) :
    unlocatedStatements statements = statements.map Stmt.unlocated := by
  induction statements with
  | nil => rfl
  | cons s rest ih => rw [unlocatedStatements, ih, List.map_cons]

theorem block_readBack {statements : List Stmt} (h : StmtsReadBack statements ks) :
    (Block.mk statements span).ReadBack (.mark .leftBrace :: (ks ++ [.mark .rightBrace])) := by
  intro fuel hfuel
  simp only [List.length_cons, List.length_append, List.length_nil] at hfuel
  obtain ⟨fuel, rfl⟩ : ∃ n, fuel = n + 1 := ⟨fuel - 1, by omega⟩
  rw [Parse.block]
  refine leads_expect (by simp) fun _ => ?_
  refine (h fuel (some .rightBrace) #[] (.inr rfl) (by omega)).bind (fun _ _ => rfl) fun a ha => ?_
  refine leads_expect (by simp) fun _ => reads_pure ?_
  simpa [Block.unlocated] using ha

end

/-! ### All trees -/

mutual

theorem Expr.Spelled.readBack : ∀ {e : Expr} {ks : List TokenKind}, e.Spelled ks → e.ReadBack ks
  | _, _, .identifier h => readBack_identifier h
  | _, _, .integer h => readBack_integer h
  | _, _, .string h => readBack_string h
  | _, _, .boolean => readBack_boolean
  | _, _, .null => readBack_null
  | _, _, .unary h => readBack_unary h.readBack
  | _, _, .binary hleft hright => readBack_binary hleft.readBack hright.readBack
  | _, _, .conditional hcondition hthen helse =>
    readBack_conditional (.conditional hcondition hthen helse) hcondition.readBack hthen.readBack
      helse.readBack
  | _, _, .function hparams hbody => readBack_function hparams hbody hbody.readBack
  | _, _, .call hcallee hargs => readBack_call hcallee.readBack hargs hargs.readBack
  | _, _, .array h => readBack_array h h.readBack
  | _, _, .hash h => readBack_hash h h.readBack
  | _, _, .index hobject hindex => readBack_index hobject.readBack hindex.readBack

theorem ExprsSpelled.readBack : ∀ {es : List Expr} {items : List (List TokenKind)},
    ExprsSpelled es items → List.Forall₂ Expr.ReadBack es items
  | _, _, .nil => .nil
  | _, _, .cons he hrest => .cons he.readBack hrest.readBack

theorem EntriesSpelled.readBack : ∀ {entries : List (Expr × Expr)}
    {items : List (List TokenKind)}, EntriesSpelled entries items →
      List.Forall₂ EntryReadBack entries items
  | _, _, .nil => .nil
  | _, _, .cons hkey hvalue hrest =>
    .cons ⟨_, _, rfl, hkey.readBack, hvalue.readBack⟩ hrest.readBack

theorem ElseSpelled.readBack : ∀ {elseBranch : Option Block} {ks : List TokenKind},
    ElseSpelled elseBranch ks → ElseReadBack elseBranch ks
  | _, _, .none => elseReadBack_none
  | _, _, .some h => elseReadBack_some h h.readBack

theorem Stmt.Spelled.readBack : ∀ {s : Stmt} {ks : List TokenKind}, s.Spelled ks → s.ReadBack ks
  | _, _, .declare _ hnamed h => readBack_declare hnamed h.readBack
  | _, _, .assign _ h => readBack_assign h.readBack
  | _, _, .retNone => readBack_retNone
  | _, _, .ret h => readBack_ret h.readBack

theorem StmtsSpelled.readBack : ∀ {statements : List Stmt} {ks : List TokenKind},
    StmtsSpelled statements ks → StmtsReadBack statements ks
  | _, _, .nil => stmtsReadBack_nil
  | _, _, .expression h => stmtsReadBack_expression h.readBack
  | _, _, .cons hs hrest => stmtsReadBack_cons hs.readBack hrest.readBack

theorem Block.Spelled.readBack : ∀ {block : Block} {ks : List TokenKind},
    block.Spelled ks → block.ReadBack ks
  | _, _, .mk h => block_readBack h.readBack

end

/-- Tokens that write statements are parsed into these statements. -/
theorem StmtsSpelled.parse {statements : List Stmt} {ks : List TokenKind} {tokens : List Token}
    (h : StmtsSpelled statements ks) (htokens : tokens.map Token.kind = ks ++ [.endOfInput]) :
    ∃ ast, Bytescript.parse tokens = .ok ast ∧ ast.unlocated = Ast.unlocated ⟨statements⟩ := by
  obtain ⟨front, back, rfl, hfront, hback⟩ := List.map_eq_append_iff.mp htokens
  have hlength : front.length = ks.length := by rw [← hfront, List.length_map]
  have hend : firstKind back = .endOfInput := by
    obtain ⟨token, rest, rfl, hkind, -⟩ := List.map_eq_cons_iff.mp hback
    exact hkind
  obtain ⟨a, last, hrun, ha⟩ := h.readBack (fuelFor (front ++ back).length) none #[] (.inl rfl)
    (by rw [fuelFor, List.length_append]; omega) front back (.single {}) hfront hend
  refine ⟨⟨a⟩, ?_, ?_⟩
  · rw [Bytescript.parse, hrun]
    rfl
  · simpa [Ast.unlocated] using ha

end Bytescript
