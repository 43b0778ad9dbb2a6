/-
Operators are grouped by how tightly they bind.

Main statement: from operands with operators between them the parser reads all of these tokens, and
what it returns is the only tree that has the operands and operators in this order and in which an
operator binds at least as tightly as the one above it, and more tightly if it stands on the right
of that one (`expr_chain`).

Design notes: operators come in four ranks, which are fixed here without the powers that the parser
hands to its functions (`BinaryOp.rank`). An operand is an atomic token with prefix operators before
it and suffixes behind it; the suffixes belong to the token and the prefix operators to both
(`Expr.IsOperand`). Between the parentheses and brackets of a suffix stands anything that the parser
reads there, which includes other chains (`Expr.Arranges.isArgument`).

The loop that looks for operators is followed with the tree that it has built so far: the next
operator binds no more tightly than the root of this tree, since the right operand at the root has
taken all those that do. That a tree is the only one follows from where its root stands: the root is
the last one of the operators of the lowest rank.
-/
import Bytescript.Proofs.Reading

namespace Bytescript

open Parse

/-! ### Trees that respect the ranks -/

/-- How tightly an operator binds, compared with others. -/
def BinaryOp.rank : BinaryOp → Nat
  | equal | notEqual => 0
  | less | lessEqual | greater | greaterEqual => 1
  | add | sub => 2
  | mul | div | mod => 3

theorem BinaryOp.level_precedence (op : BinaryOp) : op.precedence.level = op.rank + 1 := by
  cases op <;> rfl

theorem BinaryOp.level_le_level_iff {op op' : BinaryOp} :
    op.precedence.level ≤ op'.precedence.level ↔ op.rank ≤ op'.rank := by
  rw [op.level_precedence, op'.level_precedence, Nat.add_le_add_iff_right]

theorem BinaryOp.level_lt_level_iff {op op' : BinaryOp} :
    op.precedence.level < op'.precedence.level ↔ op.rank < op'.rank := by
  rw [op.level_precedence, op'.level_precedence, Nat.add_lt_add_iff_right]

theorem BinaryOp.level_lt_unary (op : BinaryOp) :
    op.precedence.level < Precedence.unary.level := by
  cases op <;> decide

namespace Expr

/-- The operator at the root. -/
def operator? : Expr → Option BinaryOp
  | .binary op .. => some op
  | _ => none

/-- The operands and the operators between them from left to right. Operands are given without
places. -/
def inorder : Expr → Expr × List (BinaryOp × Expr)
  | .binary op left right _ =>
    (left.inorder.1, left.inorder.2 ++ (op, right.inorder.1) :: right.inorder.2)
  | e => (e.unlocated, [])

/-- Every operator binds no more tightly than the one below it on the left and less tightly than the
one below it on the right. -/
def Grouped : Expr → Prop
  | .binary op left right _ => left.Grouped ∧ right.Grouped ∧
    (∀ op', left.operator? = some op' → op.rank ≤ op'.rank) ∧
    ∀ op', right.operator? = some op' → op.rank < op'.rank
  | _ => True

variable {e t u : Expr}

theorem operator?_unlocated (e : Expr) : e.unlocated.operator? = e.operator? := by
  cases e <;> rfl

theorem exists_binary {op : BinaryOp} (h : e.operator? = some op) :
    ∃ left right span, e = .binary op left right span := by
  cases e with
  | binary op' left right span =>
    cases h
    exact ⟨left, right, span, rfl⟩
  | _ => cases h

theorem inorder_of_none (h : e.operator? = none) : e.inorder = (e.unlocated, []) := by
  cases e with
  | binary => cases h
  | _ => rfl

theorem grouped_of_none (h : e.operator? = none) : e.Grouped := by
  cases e with
  | binary => cases h
  | _ => trivial

/-- The operator at the root is one of those in the tree. -/
theorem mem_inorder_of_operator? {op : BinaryOp} (h : e.operator? = some op) :
    ∃ x, (op, x) ∈ e.inorder.2 := by
  obtain ⟨left, right, span, rfl⟩ := exists_binary h
  exact ⟨right.inorder.1, List.mem_append_right _ List.mem_cons_self⟩

/-- No operator in a tree binds less tightly than the one at its root. -/
theorem Grouped.le_rank {n : Nat} (h : t.Grouped)
    (hroot : ∀ op, t.operator? = some op → n ≤ op.rank) : ∀ p ∈ t.inorder.2, n ≤ p.1.rank := by
  fun_induction Expr.inorder t with
  | case1 op left right span ihleft ihright =>
    obtain ⟨hleft, hright, hle, hlt⟩ := h
    have hop : n ≤ op.rank := hroot op rfl
    intro p hp
    obtain hp | hp := List.mem_append.mp hp
    · exact ihleft hleft (fun op' hop' => Nat.le_trans hop (hle op' hop')) p hp
    · obtain rfl | hp := List.mem_cons.mp hp
      · exact hop
      · exact ihright hright (fun op' hop' => Nat.le_trans hop (Nat.le_of_lt (hlt op' hop'))) p hp
  | case2 => exact fun p hp => absurd hp List.not_mem_nil

end Expr

/-- The last one of the operators of the lowest rank stands in one place only. -/
theorem split_at_lowest {op op' : BinaryOp} {x x' : Expr} {ls ls' rs rs' : List (BinaryOp × Expr)}
    (h : ls ++ (op, x) :: rs = ls' ++ (op', x') :: rs')
    (hls : ∀ p ∈ ls, op.rank ≤ p.1.rank) (hrs : ∀ p ∈ rs, op.rank < p.1.rank)
    (hls' : ∀ p ∈ ls', op'.rank ≤ p.1.rank) (hrs' : ∀ p ∈ rs', op'.rank < p.1.rank) :
    ls = ls' ∧ op = op' ∧ x = x' ∧ rs = rs' := by
  obtain ⟨ms, rfl, hms⟩ | ⟨ms, rfl, hms⟩ := List.append_eq_append_iff.mp h
  · cases ms with
    | nil =>
      simp only [List.nil_append, List.cons.injEq, Prod.mk.injEq] at hms
      exact ⟨(List.append_nil _).symm, hms.1.1, hms.1.2, hms.2⟩
    | cons m ms =>
      -- each of the two operators would stand on the right of the other
      obtain ⟨rfl, rfl⟩ := List.cons.inj hms
      have hle := hls' (op, x) (by simp)
      have hlt := hrs (op', x') (by simp)
      exact absurd hle (Nat.not_le.mpr hlt)
  · cases ms with
    | nil =>
      simp only [List.nil_append, List.cons.injEq, Prod.mk.injEq] at hms
      exact ⟨List.append_nil _, hms.1.1.symm, hms.1.2.symm, hms.2.symm⟩
    | cons m ms =>
      obtain ⟨rfl, rfl⟩ := List.cons.inj hms
      have hle := hls (op', x') (by simp)
      have hlt := hrs' (op, x) (by simp)
      exact absurd hle (Nat.not_le.mpr hlt)

/-- A tree is known from its operands and operators. -/
theorem Expr.Grouped.unlocated_eq {t u : Expr} (ht : t.Grouped) (hu : u.Grouped)
    (h : t.inorder = u.inorder) : t.unlocated = u.unlocated := by
  fun_induction Expr.inorder t generalizing u with
  | case1 op left right span ihleft ihright =>
    obtain ⟨hleft, hright, hle, hlt⟩ := ht
    cases hroot : u.operator? with
    | none =>
      rw [Expr.inorder_of_none hroot] at h
      simp at h
    | some op' =>
      obtain ⟨left', right', span', rfl⟩ := Expr.exists_binary hroot
      obtain ⟨hleft', hright', hle', hlt'⟩ := hu
      obtain ⟨hfirst, hrest⟩ := Prod.mk.inj h
      -- the root of both trees is the last of the weakest operators
      obtain ⟨hls, rfl, hx, hrs⟩ := split_at_lowest hrest (hleft.le_rank hle)
        (hright.le_rank hlt) (hleft'.le_rank hle') (hright'.le_rank hlt')
      rw [Expr.unlocated, Expr.unlocated, ihleft hleft hleft' (Prod.ext hfirst hls),
        ihright hright hright' (Prod.ext hx hrs)]
  | case2 e he =>
    cases hroot : u.operator? with
    | none =>
      rw [Expr.inorder_of_none hroot] at h
      exact (Prod.mk.inj h).1
    | some op =>
      obtain ⟨left, right, span, rfl⟩ := Expr.exists_binary hroot
      simp [Expr.inorder] at h

/-! ### Operands -/

/-- A token that is an expression by itself. -/
inductive Expr.IsAtom : Expr → TokenKind → Prop where
  | identifier {name : String} {span : Span} : IsAtom (.identifier name span) (.identifier name)
  | integer {value : Int64} {span : Span} : IsAtom (.integer value span) (.integer value)
  | float {value : Binary64} {span : Span} : IsAtom (.float value span) (.float value)
  | string {value : String} {span : Span} : IsAtom (.string value span) (.string value)
  | trueWord {span : Span} : IsAtom (.boolean true span) (.keyword .trueWord)
  | falseWord {span : Span} : IsAtom (.boolean false span) (.keyword .falseWord)
  | null {span : Span} : IsAtom (.null span) (.keyword .nullWord)

/-- May stand behind an argument or an index. -/
def TokenKind.EndsArgument (kind : TokenKind) : Prop :=
  kind = .mark .comma ∨ kind = .mark .rightParen ∨ kind = .mark .rightBracket

/-- The tokens of the kinds `ks` are read as the expression where an argument or an index is
wanted. -/
def Expr.IsArgument (e : Expr) (ks : List TokenKind) : Prop :=
  ∀ fuel, fuelFor ks.length ≤ fuel →
    Reads (Parse.expr fuel .lowest) ks TokenKind.EndsArgument fun a => a.unlocated = e.unlocated

/-- An atomic token and the calls and indices behind it. A comma may stand behind the last argument
of a call. -/
inductive Expr.IsSuffixed : Expr → List TokenKind → Prop where
  | atom {e : Expr} {kind : TokenKind} : e.IsAtom kind → e.IsSuffixed [kind]
  | call {callee : Expr} {args : List Expr} {span : Span} {ks tail : List TokenKind}
      {items : List (List TokenKind)} : callee.IsSuffixed ks →
    List.Forall₂ Expr.IsArgument args items →
    tail = [] ∨ tail = [.mark .comma] ∧ args ≠ [] →
    (Expr.call callee args span).IsSuffixed
      (ks ++ .mark .leftParen :: (separated items ++ (tail ++ [.mark .rightParen])))
  | index {object key : Expr} {span : Span} {ks is : List TokenKind} : object.IsSuffixed ks →
    key.IsArgument is →
    (Expr.index object key span).IsSuffixed
      (ks ++ .mark .leftBracket :: (is ++ [.mark .rightBracket]))

/-- Prefix operators before an atomic token with its suffixes. -/
inductive Expr.IsOperand : Expr → List TokenKind → Prop where
  | suffixed {e : Expr} {ks : List TokenKind} : e.IsSuffixed ks → e.IsOperand ks
  | unary {e : Expr} {op : UnaryOp} {span : Span} {ks : List TokenKind} : e.IsOperand ks →
    (Expr.unary op e span).IsOperand (.mark op.mark :: ks)

section

variable {e : Expr} {ks : List TokenKind} {kind : TokenKind} {fuel : Nat} {precedence : Precedence}
  {next : TokenKind → Prop}

theorem Expr.IsSuffixed.operator?_eq_none (h : e.IsSuffixed ks) : e.operator? = none := by
  cases h with
  | atom h => cases h <;> rfl
  | call => rfl
  | index => rfl

theorem Expr.IsOperand.operator?_eq_none (h : e.IsOperand ks) : e.operator? = none := by
  cases h with
  | suffixed h => exact h.operator?_eq_none
  | unary => rfl

theorem Expr.IsSuffixed.length_pos (h : e.IsSuffixed ks) : 0 < ks.length := by
  cases h with
  | atom => exact Nat.one_pos
  | call | index => exact List.length_pos_of_mem (List.mem_append_right _ List.mem_cons_self)

theorem Expr.IsOperand.length_pos (h : e.IsOperand ks) : 0 < ks.length := by
  cases h with
  | suffixed h => exact h.length_pos
  | unary => simp

/-- No expression begins where an argument may end. -/
theorem run_expr_of_endsArgument (h : kind.EndsArgument) (lexeme : String) (span last : Span)
    (rest : List Token) : ∃ error,
      (Parse.expr (fuel + 2) precedence : Parse Expr).run ⟨⟨kind, lexeme, span⟩ :: rest, last⟩ =
        .error error := by
  obtain rfl | rfl | rfl := h
  · exact ⟨_, rfl⟩
  · exact ⟨_, rfl⟩
  · exact ⟨_, rfl⟩

/-- An argument has a token, and the first one does not end the list of arguments. -/
theorem Expr.IsArgument.opens (h : e.IsArgument ks) :
    ∃ kind rest, ks = kind :: rest ∧ ¬ kind.EndsArgument := by
  have hfuel : fuelFor ks.length ≤ fuelFor ks.length + 2 := Nat.le_add_right _ _
  have hkinds : (ks.map fun kind => Token.mk kind "" {}).map Token.kind = ks := by
    rw [List.map_map]
    exact List.map_id ks
  obtain ⟨a, last, hrun, -⟩ := h _ hfuel _ [⟨.mark .comma, "", {}⟩] {} hkinds (.inl rfl)
  cases ks with
  | nil =>
    obtain ⟨error, herror⟩ := run_expr_of_endsArgument (.inl rfl) "" {} {} []
    cases herror.symm.trans hrun
  | cons kind rest =>
    refine ⟨kind, rest, rfl, fun hkind => ?_⟩
    obtain ⟨error, herror⟩ := run_expr_of_endsArgument hkind "" {} {} _
    cases herror.symm.trans hrun

theorem Expr.IsArgument.isItem (h : e.IsArgument ks) : e.IsItem .rightParen 16 16 ks := by
  refine ⟨?_, fun hfuel => (h _ ?_).mono ?_⟩
  · obtain ⟨kind, rest, hks, hkind⟩ := h.opens
    exact ⟨kind, rest, hks, fun hparen => hkind (.inr (.inl hparen))⟩
  · rw [fuelFor]
    omega
  · rintro kind (hkind | hkind)
    · exact .inl hkind
    · exact .inr (.inl hkind)

theorem Expr.IsAtom.reads (h : e.IsAtom kind) :
    Reads (operand (fuel + 1)) [kind] next fun a => a.unlocated = e.unlocated := by
  cases h <;> exact leads_peek_skip (by simp) fun _ => reads_pure rfl

/-- The parser comes to the end of the suffixes with an expression of which it looks for more. -/
theorem Expr.IsSuffixed.leads (h : e.IsSuffixed ks)
    (hprecedence : precedence.level < Precedence.call.level) :
    ∀ fuel, 16 * ks.length ≤ fuel → ∃ fuel', fuel ≤ fuel' + ks.length ∧
      Leads (Parse.expr fuel precedence) ks (fun _ => True) (continued fuel' precedence) fun a =>
        a.unlocated = e.unlocated := by
  induction h with
  | atom h =>
    intro fuel hfuel
    rw [List.length_singleton] at hfuel
    obtain ⟨fuel, rfl⟩ : ∃ n, fuel = n + 2 := ⟨fuel - 2, by omega⟩
    refine ⟨fuel + 1, Nat.le_refl _, ?_⟩
    rw [Parse.expr]
    exact h.reads.leads
  | @call callee args span ks tail items hcallee hargs htail ih =>
    intro fuel hfuel
    simp only [List.length_append, List.length_cons, List.length_nil] at hfuel ⊢
    obtain ⟨fuel', hle, hleads⟩ := ih fuel (by omega)
    obtain ⟨fuel', rfl⟩ : ∃ n, fuel' = n + 1 := ⟨fuel' - 1, by omega⟩
    -- what stands before the parentheses is read first, and then the parser looks for more
    refine ⟨fuel', by omega, hleads.trans (fun _ _ => trivial) fun a ha => ?_⟩
    have hlist : Reads (list fuel' .rightParen) (separated items ++ (tail ++ [.mark .rightParen]))
        (fun _ => True) fun a => unlocatedAll a = unlocatedAll args :=
      reads_list (by simp) htail (by omega) (hargs.imp fun _ _ harg => harg.isItem) (by omega)
    refine (leads_continued_call hprecedence hlist).trans_last (fun _ h => h) ?_
    rintro _ ⟨args', span', hargs', rfl⟩
    exact .done (by simp only [Expr.unlocated, ha, hargs'])
  | @index object key span ks is hobject hkey ih =>
    intro fuel hfuel
    simp only [List.length_append, List.length_cons, List.length_nil] at hfuel ⊢
    obtain ⟨fuel', hle, hleads⟩ := ih fuel (by omega)
    obtain ⟨fuel', rfl⟩ : ∃ n, fuel' = n + 1 := ⟨fuel' - 1, by omega⟩
    refine ⟨fuel', by omega, hleads.trans (fun _ _ => trivial) fun a ha => ?_⟩
    have hlevel : precedence.level < Precedence.index.level := Nat.lt_succ_of_lt hprecedence
    have hreads : Reads (Parse.expr fuel' .lowest) is (· = .mark .rightBracket) fun a =>
        a.unlocated = key.unlocated :=
      (hkey fuel' (by rw [fuelFor]; omega)).mono fun _ hkind => .inr (.inr hkind)
    refine (leads_continued_index hlevel hreads).trans_last (fun _ h => h) ?_
    rintro _ ⟨key', span', hkey', rfl⟩
    exact .done (by simp only [Expr.unlocated, ha, hkey'])

/-- A prefix operator takes its operand with all suffixes and no operator between operands. -/
theorem reads_prefixed {op : UnaryOp} {Q : Expr → Prop}
    (h : Reads (Parse.expr fuel .unary) ks next Q) :
    Reads (operand (fuel + 2)) (.mark op.mark :: ks) next fun a =>
      ∃ inner span, Q inner ∧ a = .unary op inner span := by
  have hunary : ∀ start, Reads (unary (fuel + 1) op start) ks next fun a =>
      ∃ inner span, Q inner ∧ a = .unary op inner span := by
    intro start
    rw [unary]
    exact h.bind_last fun inner hinner => reads_pure ⟨inner, _, hinner, rfl⟩
  refine leads_peek_skip (by simp) fun start => ?_
  cases op with
  | negate => exact hunary start
  | not => exact hunary start

theorem Expr.IsOperand.leads (h : e.IsOperand ks) :
    ∀ fuel {precedence : Precedence}, precedence.level < Precedence.call.level →
      16 * ks.length ≤ fuel → ∃ fuel', fuel ≤ fuel' + ks.length ∧
      Leads (Parse.expr fuel precedence) ks (TokenKind.Stops .unary) (continued fuel' precedence)
        fun a => a.unlocated = e.unlocated := by
  induction h with
  | suffixed h =>
    intro fuel precedence hprecedence hfuel
    obtain ⟨fuel', hle, hleads⟩ := h.leads hprecedence fuel hfuel
    exact ⟨fuel', hle, hleads.mono fun _ _ => trivial⟩
  | @unary e op span ks h ih =>
    intro fuel precedence _ hfuel
    rw [List.length_cons] at hfuel ⊢
    obtain ⟨fuel, rfl⟩ : ∃ n, fuel = n + 2 + 1 := ⟨fuel - 3, by omega⟩
    obtain ⟨fuel', hle, hleads⟩ := ih fuel (show Precedence.unary.level < _ by decide) (by omega)
    have hinner : Reads (Parse.expr fuel .unary) ks (TokenKind.Stops .unary) fun a =>
        a.unlocated = e.unlocated :=
      hleads.trans_last (fun _ h => h) fun a ha => leads_continued_stop ha (by omega)
    refine ⟨fuel + 2, by omega, ?_⟩
    rw [Parse.expr]
    refine (reads_prefixed hinner).leads.trans_last (fun _ h => h) ?_
    rintro _ ⟨inner, span, hinner, rfl⟩
    exact .done (by simp only [Expr.unlocated, hinner])

end

/-! ### Chains -/

/-- An operand and the kinds of its tokens. -/
structure Operand where
  tree : Expr
  kinds : List TokenKind
  isOperand : tree.IsOperand kinds

/-- Operators, each with an operand behind it. -/
abbrev Links := List (BinaryOp × Operand)

/-- Operands with operators between them. -/
structure Chain where
  first : Operand
  links : Links

/-- The tokens of operators and the operands behind them. -/
def Links.kinds (links : Links) : List TokenKind :=
  links.flatMap fun link => .mark link.1.mark :: link.2.kinds

/-- Operators and the operands behind them, without places. -/
def Links.trees (links : Links) : List (BinaryOp × Expr) :=
  links.map fun link => (link.1, link.2.tree.unlocated)

namespace Chain

/-- The tokens of a chain. -/
def kinds (chain : Chain) : List TokenKind :=
  chain.first.kinds ++ chain.links.kinds

/-- The operands and operators of a chain, without places. -/
def inorder (chain : Chain) : Expr × List (BinaryOp × Expr) :=
  (chain.first.tree.unlocated, chain.links.trees)

end Chain

namespace Links

@[simp]
theorem kinds_cons (op : BinaryOp) (x : Operand) (links : Links) :
    Links.kinds ((op, x) :: links) = .mark op.mark :: (x.kinds ++ Links.kinds links) := by
  simp [Links.kinds]

@[simp]
theorem kinds_append (links links' : Links) :
    Links.kinds (links ++ links') = Links.kinds links ++ Links.kinds links' := by
  simp [Links.kinds]

/-- The operators up to the first one that does not bind more tightly than `op`. -/
theorem exists_split (op : BinaryOp) (links : Links) : ∃ front back : Links,
    links = front ++ back ∧ (∀ link ∈ front, op.rank < link.1.rank) ∧
      ∀ link ∈ back.head?, link.1.rank ≤ op.rank := by
  induction links with
  | nil => exact ⟨[], [], rfl, by simp, by simp⟩
  | cons link links ih =>
    by_cases hlink : op.rank < link.1.rank
    · obtain ⟨front, back, rfl, hfront, hback⟩ := ih
      exact ⟨link :: front, back, rfl, List.forall_mem_cons.mpr ⟨hlink, hfront⟩, hback⟩
    · exact ⟨[], link :: links, rfl, by simp, by simpa using Nat.not_lt.mp hlink⟩

/-- What stops the operators of a chain, or stands behind it, stops an operand in it. -/
theorem headD_stops {links : Links} {precedence precedence' : Precedence} {kind : TokenKind}
    (hlinks : ∀ link ∈ links.head?, link.1.precedence.level ≤ precedence'.level)
    (hkind : kind.Stops precedence) (hle : precedence.level ≤ precedence'.level) :
    (links.kinds.headD kind).Stops precedence' := by
  cases links with
  | nil => exact fun c hc => Nat.le_trans (hkind c hc) hle
  | cons link links =>
    obtain ⟨op, x⟩ := link
    rw [kinds_cons, List.headD_cons]
    intro c hc
    rw [Continuation.ofToken?_mark] at hc
    cases hc
    exact hlinks (op, x) rfl

end Links

section

variable {fuel : Nat} {precedence : Precedence}

/-- An expression is its first operand and what the loop reads behind it. -/
theorem reads_expr_of_continued {x : Operand} {links : Links}
    (hprecedence : precedence.level < Precedence.unary.level)
    (hcontinued : ∀ {fuel' : Nat} {a : Expr}, a.operator? = none →
      16 * links.kinds.length < fuel' →
      Reads (continued fuel' precedence a) links.kinds (TokenKind.Stops precedence) fun t =>
        t.Grouped ∧ t.inorder = (a.inorder.1, a.inorder.2 ++ links.trees))
    (hfuel : 16 * (x.kinds ++ links.kinds).length ≤ fuel) :
    Reads (Parse.expr fuel precedence) (x.kinds ++ links.kinds) (TokenKind.Stops precedence)
      fun t => t.Grouped ∧ t.inorder = (x.tree.unlocated, links.trees) := by
  have hpos := x.isOperand.length_pos
  rw [List.length_append] at hfuel
  obtain ⟨fuel', hle, hleads⟩ := x.isOperand.leads fuel (Nat.lt_succ_of_lt hprecedence) (by omega)
  refine hleads.trans (fun kind hkind => ?_) fun a ha => ?_
  · exact Links.headD_stops (fun link _ => Nat.le_of_lt link.1.level_lt_unary) hkind
      (Nat.le_of_lt hprecedence)
  · have hnone : a.operator? = none := by
      rw [← a.operator?_unlocated, ha, Expr.operator?_unlocated, x.isOperand.operator?_eq_none]
    have hreads := hcontinued hnone (show 16 * links.kinds.length < fuel' by omega)
    rw [Expr.inorder_of_none hnone, ha] at hreads
    exact hreads

/-- A right operand in which all operators bind more tightly. -/
theorem Expr.Grouped.binary {op : BinaryOp} {left right : Expr} {links : Links} {x : Expr}
    (hleft : left.Grouped) (hroot : ∀ op', left.operator? = some op' → op.rank ≤ op'.rank)
    (hright : right.Grouped) (hinorder : right.inorder = (x, links.trees))
    (hlinks : ∀ link ∈ links, op.rank < link.1.rank) (span : Span) :
    (Expr.binary op left right span).Grouped := by
  refine ⟨hleft, hright, hroot, fun op' hop' => ?_⟩
  obtain ⟨y, hy⟩ := Expr.mem_inorder_of_operator? hop'
  rw [hinorder] at hy
  obtain ⟨link, hlink, heq⟩ := List.mem_map.mp hy
  cases heq
  exact hlinks link hlink

/-- The loop groups the operators that it reads with those in `left`. -/
theorem reads_continued_links {links : Links} {left : Expr}
    (hprecedence : precedence.level < Precedence.unary.level)
    (hlinks : ∀ link ∈ links, precedence.level < link.1.precedence.level)
    (hleft : left.Grouped)
    (hroot : ∀ op, left.operator? = some op → ∀ link ∈ links.head?, link.1.rank ≤ op.rank)
    (hfuel : 16 * links.kinds.length < fuel) :
    Reads (continued fuel precedence left) links.kinds (TokenKind.Stops precedence) fun t =>
      t.Grouped ∧ t.inorder = (left.inorder.1, left.inorder.2 ++ links.trees) := by
  -- the right operand and what is left to the loop both have fewer operators
  induction hn : links.length using Nat.strongRecOn
    generalizing links left precedence fuel with
  | ind n ih =>
  subst hn
  cases links with
  | nil => exact leads_continued_stop ⟨hleft, by simp [Links.trees]⟩ (by omega)
  | cons link links =>
    obtain ⟨op, x⟩ := link
    obtain ⟨front, back, rfl, hfront, hback⟩ := Links.exists_split op links
    have hop : precedence.level < op.precedence.level := hlinks (op, x) List.mem_cons_self
    simp only [Links.kinds_cons, Links.kinds_append, List.length_cons, List.length_append]
      at hfuel ih
    obtain ⟨fuel, rfl⟩ : ∃ n, fuel = n + 1 := ⟨fuel - 1, by omega⟩
    have hright : Reads (Parse.expr fuel op.precedence) (x.kinds ++ Links.kinds front)
        (TokenKind.Stops op.precedence) fun t =>
          t.Grouped ∧ t.inorder = (x.tree.unlocated, Links.trees front) := by
      have hlevels : ∀ link ∈ front, op.precedence.level < link.1.precedence.level :=
        fun link hlink => BinaryOp.level_lt_level_iff.mpr (hfront link hlink)
      refine reads_expr_of_continued op.level_lt_unary (fun hnone hfuel' => ?_)
        (by rw [List.length_append]; omega)
      exact ih front.length (by omega) op.level_lt_unary hlevels (Expr.grouped_of_none hnone)
        (by simp [hnone]) hfuel' rfl
    rw [Links.kinds_cons, Links.kinds_append, ← List.append_assoc, ← List.cons_append]
    refine (leads_continued_operator hop hright).trans (fun kind hkind => ?_) ?_
    · have hlevels : ∀ link ∈ back.head?, link.1.precedence.level ≤ op.precedence.level :=
        fun link hlink => BinaryOp.level_le_level_iff.mpr (hback link hlink)
      exact Links.headD_stops hlevels hkind (Nat.le_of_lt hop)
    · rintro _ ⟨right, span, ⟨hgrouped, hinorder⟩, rfl⟩
      have hbinary : (Expr.binary op left right span).Grouped :=
        hleft.binary (fun op' hop' => hroot op' hop' (op, x) rfl) hgrouped hinorder hfront span
      have hrest : ∀ link ∈ back, precedence.level < link.1.precedence.level := fun link hlink =>
        hlinks link (List.mem_cons_of_mem _ (List.mem_append_right _ hlink))
      have hlast : 16 * (Links.kinds back).length < fuel := by omega
      have hreads := ih back.length (by omega) hprecedence hrest hbinary
        (by rintro _ ⟨⟩; exact hback) hlast rfl
      have htrees : ((Expr.binary op left right span).inorder.1,
          (Expr.binary op left right span).inorder.2 ++ Links.trees back) =
            (left.inorder.1, left.inorder.2 ++ Links.trees ((op, x) :: (front ++ back))) := by
        simp [Expr.inorder, hinorder, Links.trees]
      rw [htrees] at hreads
      exact hreads

/-- A chain is read up to its end and grouped by the ranks of its operators. -/
theorem Chain.reads (chain : Chain) (hfuel : fuelFor chain.kinds.length ≤ fuel) :
    Reads (Parse.expr fuel .lowest) chain.kinds (TokenKind.Stops .lowest) fun t =>
      t.Grouped ∧ t.inorder = chain.inorder := by
  have hlevels : ∀ link ∈ chain.links, Precedence.lowest.level < link.1.precedence.level := by
    intro link _
    rw [link.1.level_precedence]
    exact Nat.succ_pos _
  refine reads_expr_of_continued (by decide) (fun hnone hfuel' => ?_) ?_
  · exact reads_continued_links (by decide) hlevels (Expr.grouped_of_none hnone) (by simp [hnone])
      hfuel'
  · rw [fuelFor, Chain.kinds] at hfuel
    omega

end

/-- The tree groups the operands of the chain by the ranks of the operators. -/
structure Expr.Arranges (t : Expr) (chain : Chain) : Prop where
  grouped : t.Grouped
  inorder : t.inorder = chain.inorder

theorem Expr.Arranges.unlocated_eq {t u : Expr} {chain : Chain} (ht : t.Arranges chain)
    (hu : u.Arranges chain) : t.unlocated = u.unlocated :=
  ht.grouped.unlocated_eq hu.grouped (ht.inorder.trans hu.inorder.symm)

/-- A chain can be an argument or an index in another one. -/
theorem Expr.Arranges.isArgument {t : Expr} {chain : Chain} (h : t.Arranges chain) :
    t.IsArgument chain.kinds := by
  intro fuel hfuel tokens more last htokens hmore
  have hstops : (firstKind more).Stops .lowest := by
    obtain hkind | hkind | hkind := hmore
    all_goals
      rw [hkind]
      exact TokenKind.stops_of_none rfl .lowest
  obtain ⟨a, last', hrun, hgrouped, hinorder⟩ :=
    chain.reads hfuel tokens more last htokens hstops
  exact ⟨a, last', hrun, Expr.Arranges.unlocated_eq ⟨hgrouped, hinorder⟩ h⟩

/-- Is no operator between operands and begins no suffix. -/
def TokenKind.EndsChain (kind : TokenKind) : Prop :=
  BinaryOp.ofToken? kind = none ∧ kind ≠ .mark .leftParen ∧ kind ≠ .mark .leftBracket

theorem TokenKind.EndsChain.stops {kind : TokenKind} (h : kind.EndsChain)
    (precedence : Precedence) : kind.Stops precedence := by
  obtain ⟨hoperator, hparen, hbracket⟩ := h
  refine TokenKind.stops_of_none ?_ precedence
  unfold Continuation.ofToken?
  split
  · exact absurd rfl hparen
  · exact absurd rfl hbracket
  · rw [hoperator]
    rfl

/-- In front of a token that does not continue a chain, all tokens of the chain are read, and they
are read as the only tree that groups the operands by the ranks of the operators. -/
theorem expr_chain (chain : Chain) {tokens more : List Token} {last : Span} {fuel : Nat}
    (htokens : tokens.map Token.kind = chain.kinds) (hmore : (firstKind more).EndsChain)
    (hfuel : fuelFor tokens.length ≤ fuel) :
    ∃ t last', (Parse.expr fuel .lowest : Parse Expr).run ⟨tokens ++ more, last⟩ =
        .ok (t, ⟨more, last'⟩) ∧
      t.Arranges chain ∧ ∀ u : Expr, u.Arranges chain → u.unlocated = t.unlocated := by
  have hlength : chain.kinds.length = tokens.length := by rw [← htokens, List.length_map]
  rw [← hlength] at hfuel
  obtain ⟨t, last', hrun, hgrouped, hinorder⟩ :=
    chain.reads hfuel tokens more last htokens (hmore.stops .lowest)
  exact ⟨t, last', hrun, ⟨hgrouped, hinorder⟩, fun u hu => hu.unlocated_eq ⟨hgrouped, hinorder⟩⟩

/-- An operand can be an argument or an index. -/
theorem Operand.isArgument (x : Operand) : x.tree.IsArgument x.kinds := by
  have hnone := x.isOperand.operator?_eq_none
  have hchain : x.tree.Arranges ⟨x, []⟩ := ⟨Expr.grouped_of_none hnone, Expr.inorder_of_none hnone⟩
  have hkinds : Chain.kinds ⟨x, []⟩ = x.kinds := List.append_nil _
  rw [← hkinds]
  exact hchain.isArgument

/-- A name as an operand. -/
def Operand.named (name : String) : Operand :=
  ⟨.identifier name {}, [.identifier name], .suffixed (.atom .identifier)⟩

/-- An operator before an operand. -/
def Operand.prefixed (op : UnaryOp) (x : Operand) : Operand :=
  ⟨.unary op x.tree {}, .mark op.mark :: x.kinds, .unary x.isOperand⟩

/-- The chain `a + b * c`. -/
def sumChain : Chain :=
  ⟨.named "a", [(.add, .named "b"), (.mul, .named "c")]⟩

/-- The tree of that chain. -/
def sumTree : Expr :=
  .binary .add (.identifier "a" {})
    (.binary .mul (.identifier "b" {}) (.identifier "c" {}) {}) {}

theorem sumTree_arranges : sumTree.Arranges sumChain :=
  ⟨by simp [sumTree, Expr.Grouped, Expr.operator?, BinaryOp.rank], rfl⟩

/-- The operand `f(a + b * c, d,)[i]`. -/
def suffixedOperand : Operand where
  tree := .index (.call (.identifier "f" {}) [sumTree, .identifier "d" {}] {})
    (.identifier "i" {}) {}
  kinds := ([.identifier "f"] ++ .mark .leftParen ::
      (separated [sumChain.kinds, [.identifier "d"]] ++ ([.mark .comma] ++ [.mark .rightParen]))) ++
    .mark .leftBracket :: ([.identifier "i"] ++ [.mark .rightBracket])
  isOperand := .suffixed (.index
    (.call (.atom .identifier)
      (.cons sumTree_arranges.isArgument (.cons (Operand.named "d").isArgument .nil))
      (.inr ⟨rfl, by simp⟩))
    (Operand.named "i").isArgument)

/-- The chain `-f(a + b * c, d,)[i] * g - h <= k == !m`. -/
def mixedChain : Chain :=
  ⟨.prefixed .negate suffixedOperand, [(.mul, .named "g"), (.sub, .named "h"),
    (.lessEqual, .named "k"), (.equal, .prefixed .not (.named "m"))]⟩

/-- The tree of that chain. -/
def mixedTree : Expr :=
  .binary .equal
    (.binary .lessEqual
      (.binary .sub
        (.binary .mul (.unary .negate suffixedOperand.tree {}) (.identifier "g" {}) {})
        (.identifier "h" {}) {})
      (.identifier "k" {}) {})
    (.unary .not (.identifier "m" {}) {}) {}

theorem expr_chain_mixed : ∃ t last,
    (Parse.expr 1000 .lowest : Parse Expr).run
      ⟨mixedChain.kinds.map (⟨·, "", {}⟩) ++ [⟨.mark .semicolon, ";", {}⟩], {}⟩ =
        .ok (t, ⟨[⟨.mark .semicolon, ";", {}⟩], last⟩) ∧ t.unlocated = mixedTree := by
  have htokens : (mixedChain.kinds.map (Token.mk · "" {})).map Token.kind = mixedChain.kinds := rfl
  have hmore : (firstKind [⟨.mark .semicolon, ";", {}⟩]).EndsChain :=
    ⟨rfl, by simp [firstKind], by simp [firstKind]⟩
  have htree : mixedTree.Arranges mixedChain :=
    ⟨by simp [mixedTree, suffixedOperand, Expr.Grouped, Expr.operator?, BinaryOp.rank], rfl⟩
  obtain ⟨t, last, hrun, -, hunique⟩ :=
    @expr_chain mixedChain _ _ {} 1000 htokens hmore (by decide)
  exact ⟨t, last, hrun, (hunique mixedTree htree).symm⟩

end Bytescript
