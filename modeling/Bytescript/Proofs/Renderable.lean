/-
Programs whose text can be read back.

`Ast.isRenderable` is a test on syntax trees. It excludes what the printer writes and the scanner or
the parser does not read in the same way: floats, functions that a declaration gives a name, strings
with characters that are printed as numbers, and expressions that stand as statements before others,
since they are printed without a semicolon. Main statement: what the parser reads from a text and
passes the test is written by tokens (`parseSource_spelled`).

Design notes: the test does not ask for everything that `Expr.Spelled` asks for. That names are
names, that integers are not negative and that only declarations name functions is known of what the
parser returns, not of trees. `Parse.Returns x Q` says that the reader `x` only gives results in
`Q` when its tokens come from the scanner; it is shown for the functions of the parser in the order
of their definition, by induction on their fuel.
-/
import Bytescript.Diagnostic.Stages
import Bytescript.Proofs.Grammar
import Bytescript.Proofs.Scanning
import Bytescript.Proofs.Readers

namespace Bytescript

/-! ### The test -/

/-- Is the expression a function? -/
def Expr.isFunction : Expr → Bool
  | .function .. => true
  | _ => false

/-- Is the statement an expression? -/
def Stmt.isExpression : Stmt → Bool
  | .expression .. => true
  | _ => false

mutual

/-- Can the text of the expression be read back? -/
@[simp]
def Expr.isRenderable : Expr → Bool
  | .identifier .. | .integer .. | .boolean .. | .null _ => true
  | .float .. => false
  | .string value _ => value.toList.all isPlain
  | .unary _ operand _ => operand.isRenderable
  | .binary _ left right _ => left.isRenderable && right.isRenderable
  | .conditional condition thenBranch elseBranch _ =>
    condition.isRenderable && thenBranch.isRenderable && elseRenderable elseBranch
  | .function _ _ body _ => body.isRenderable
  | .call callee args _ => callee.isRenderable && allRenderable args
  | .array elements _ => allRenderable elements
  | .hash entries _ => entriesRenderable entries
  | .index object index _ => object.isRenderable && index.isRenderable

/-- Can the texts of the expressions be read back? -/
@[simp]
def allRenderable : List Expr → Bool
  | [] => true
  | e :: rest => e.isRenderable && allRenderable rest

/-- Can the texts of the entries of a hash be read back? -/
@[simp]
def entriesRenderable : List (Expr × Expr) → Bool
  | [] => true
  | (key, value) :: rest => key.isRenderable && value.isRenderable && entriesRenderable rest

/-- Can the text of the `else` part of a conditional be read back? -/
@[simp]
def elseRenderable : Option Block → Bool
  | none => true
  | some block => block.isRenderable

/-- Can the text of the statement be read back? -/
@[simp]
def Stmt.isRenderable : Stmt → Bool
  | .declare _ _ value _ => !value.isFunction && value.isRenderable
  | .assign _ value _ => value.isRenderable
  | .ret none _ => true
  | .ret (some value) _ => value.isRenderable
  | .expression e _ => e.isRenderable

/-- Can the text of the statements be read back? Only the last one may be an expression. -/
@[simp]
def statementsRenderable : List Stmt → Bool
  | [] => true
  | s :: rest =>
    s.isRenderable && (!s.isExpression || rest.isEmpty) && statementsRenderable rest

/-- Can the text of the block be read back? -/
@[simp]
def Block.isRenderable : Block → Bool
  | .mk statements _ => statementsRenderable statements

end

/-- Can the text of the program be read back? -/
def Ast.isRenderable (ast : Ast) : Bool :=
  statementsRenderable ast.statements

/-! ### Trees that pass the test -/

/-- The expression is written by tokens if it passes the test. -/
def Expr.Renders (e : Expr) : Prop :=
  e.isRenderable = true → ∃ ks, e.Spelled ks

/-- The block is written by tokens if it passes the test. -/
def Block.Renders (block : Block) : Prop :=
  block.isRenderable = true → ∃ ks, block.Spelled ks

/-- The `else` part of a conditional is written by tokens if it passes the test. -/
def ElseRenders (elseBranch : Option Block) : Prop :=
  elseRenderable elseBranch = true → ∃ ks, ElseSpelled elseBranch ks

/-- The statement, or the expression that stands as one, is written by tokens if it passes the
test. -/
def Stmt.Renders : Stmt → Prop
  | .expression e _ => e.Renders
  | s => s.isRenderable = true → ∃ ks, s.Spelled ks

section

variable {e left right condition : Expr} {span : Span} {thenBranch : Block}
  {elseBranch : Option Block}

theorem renders_unary {op : UnaryOp} (h : e.Renders) : (Expr.unary op e span).Renders := by
  intro htest
  rw [Expr.isRenderable] at htest
  obtain ⟨ks, hspelled⟩ := h htest
  exact ⟨_, .unary hspelled⟩

theorem renders_binary {op : BinaryOp} (hleft : left.Renders) (hright : right.Renders) :
    (Expr.binary op left right span).Renders := by
  intro htest
  rw [Expr.isRenderable, Bool.and_eq_true] at htest
  obtain ⟨ls, hls⟩ := hleft htest.1
  obtain ⟨rs, hrs⟩ := hright htest.2
  exact ⟨_, .binary hls hrs⟩

theorem renders_index (hleft : left.Renders) (hright : right.Renders) :
    (Expr.index left right span).Renders := by
  intro htest
  rw [Expr.isRenderable, Bool.and_eq_true] at htest
  obtain ⟨ls, hls⟩ := hleft htest.1
  obtain ⟨rs, hrs⟩ := hright htest.2
  exact ⟨_, .index hls hrs⟩

theorem renders_string {value : String} : (Expr.string value span).Renders := by
  intro htest
  rw [Expr.isRenderable, List.all_eq_true] at htest
  exact ⟨_, .string htest⟩

theorem renders_conditional (hcondition : condition.Renders) (hthen : thenBranch.Renders)
    (helse : ElseRenders elseBranch) :
    (Expr.conditional condition thenBranch elseBranch span).Renders := by
  intro htest
  rw [Expr.isRenderable, Bool.and_eq_true, Bool.and_eq_true] at htest
  obtain ⟨cs, hcs⟩ := hcondition htest.1.1
  obtain ⟨ts, hts⟩ := hthen htest.1.2
  obtain ⟨es, hes⟩ := helse htest.2
  exact ⟨_, .conditional hcs hts hes⟩

theorem elseRenders_none : ElseRenders none :=
  fun _ => ⟨_, .none⟩

theorem elseRenders_some {block : Block} (h : block.Renders) : ElseRenders (some block) := by
  intro htest
  rw [elseRenderable] at htest
  obtain ⟨ks, hks⟩ := h htest
  exact ⟨_, .some hks⟩

theorem renders_function {params : List Param} {body : Block}
    (hparams : ∀ param ∈ params, IsName param.name) (hbody : body.Renders) :
    (Expr.function none params body span).Renders := by
  intro htest
  rw [Expr.isRenderable] at htest
  obtain ⟨ks, hks⟩ := hbody htest
  exact ⟨_, .function hparams hks⟩

theorem exprsSpelled_of_renders : ∀ {es : List Expr}, (∀ e ∈ es, e.Renders) →
    allRenderable es = true → ∃ items, ExprsSpelled es items
  | [], _, _ => ⟨_, .nil⟩
  | e :: rest, h, htest => by
    rw [allRenderable, Bool.and_eq_true] at htest
    obtain ⟨he, hrest⟩ := List.forall_mem_cons.mp h
    obtain ⟨ks, hks⟩ := he htest.1
    obtain ⟨items, hitems⟩ := exprsSpelled_of_renders hrest htest.2
    exact ⟨_, .cons hks hitems⟩

theorem renders_array {es : List Expr} (h : ∀ e ∈ es, e.Renders) :
    (Expr.array es span).Renders := by
  intro htest
  rw [Expr.isRenderable] at htest
  obtain ⟨items, hitems⟩ := exprsSpelled_of_renders h htest
  exact ⟨_, .array hitems⟩

theorem renders_call {args : List Expr} (he : e.Renders) (h : ∀ arg ∈ args, arg.Renders) :
    (Expr.call e args span).Renders := by
  intro htest
  rw [Expr.isRenderable, Bool.and_eq_true] at htest
  obtain ⟨ks, hks⟩ := he htest.1
  obtain ⟨items, hitems⟩ := exprsSpelled_of_renders h htest.2
  exact ⟨_, .call hks hitems⟩

theorem entriesSpelled_of_renders : ∀ {entries : List (Expr × Expr)},
    (∀ entry ∈ entries, entry.1.Renders ∧ entry.2.Renders) → entriesRenderable entries = true →
      ∃ items, EntriesSpelled entries items
  | [], _, _ => ⟨_, .nil⟩
  | (key, value) :: rest, h, htest => by
    rw [entriesRenderable, Bool.and_eq_true, Bool.and_eq_true] at htest
    obtain ⟨⟨hkey, hvalue⟩, hrest⟩ := List.forall_mem_cons.mp h
    obtain ⟨ks, hks⟩ := hkey htest.1.1
    obtain ⟨vs, hvs⟩ := hvalue htest.1.2
    obtain ⟨items, hitems⟩ := entriesSpelled_of_renders hrest htest.2
    exact ⟨_, .cons hks hvs hitems⟩

theorem renders_hash {entries : List (Expr × Expr)}
    (h : ∀ entry ∈ entries, entry.1.Renders ∧ entry.2.Renders) :
    (Expr.hash entries span).Renders := by
  intro htest
  rw [Expr.isRenderable] at htest
  obtain ⟨items, hitems⟩ := entriesSpelled_of_renders h htest
  exact ⟨_, .hash hitems⟩

/-- Only functions take a name. -/
theorem Expr.named_eq (h : e.isFunction = false) (name : String) : e.named name = e := by
  cases e with
  | function => cases h
  | _ => rfl

theorem renders_declare {mutability : Mutability} {name : String} (hname : IsName name)
    (h : e.Renders) : (Stmt.declare mutability name (e.named name) span).Renders := by
  cases hfunction : e.isFunction with
  | true =>
    -- a function takes the name and does not pass the test
    intro htest
    cases e with
    | function => cases htest
    | _ => cases hfunction
  | false =>
    rw [Expr.named_eq hfunction]
    intro htest
    rw [Stmt.isRenderable, Bool.and_eq_true] at htest
    obtain ⟨ks, hks⟩ := h htest.2
    exact ⟨_, .declare hname (Expr.named_eq hfunction name) hks⟩

theorem renders_assign {name : String} (hname : IsName name) (h : e.Renders) :
    (Stmt.assign name e span).Renders := by
  intro htest
  rw [Stmt.isRenderable] at htest
  obtain ⟨ks, hks⟩ := h htest
  exact ⟨_, .assign hname hks⟩

theorem renders_ret {value : Option Expr} (h : ∀ e ∈ value, e.Renders) :
    (Stmt.ret value span).Renders := by
  intro htest
  cases value with
  | none => exact ⟨_, .retNone⟩
  | some e =>
    rw [Stmt.isRenderable] at htest
    obtain ⟨ks, hks⟩ := h e rfl htest
    exact ⟨_, .ret hks⟩

theorem Stmt.Renders.spelled {s : Stmt} (h : s.Renders) (hs : s.isExpression = false)
    (htest : s.isRenderable = true) : ∃ ks, s.Spelled ks := by
  cases s with
  | expression => cases hs
  | _ => exact h htest

theorem stmtsSpelled_of_renders : ∀ {statements : List Stmt}, (∀ s ∈ statements, s.Renders) →
    statementsRenderable statements = true → ∃ ks, StmtsSpelled statements ks
  | [], _, _ => ⟨_, .nil⟩
  | s :: rest, h, htest => by
    rw [statementsRenderable, Bool.and_eq_true, Bool.and_eq_true, Bool.or_eq_true] at htest
    obtain ⟨⟨htest, hlast⟩, hrestTest⟩ := htest
    obtain ⟨hs, hrest⟩ := List.forall_mem_cons.mp h
    cases hexpression : s.isExpression with
    | false =>
      obtain ⟨ks, hks⟩ := hs.spelled hexpression htest
      obtain ⟨ks', hks'⟩ := stmtsSpelled_of_renders hrest hrestTest
      exact ⟨_, .cons hks hks'⟩
    | true =>
      cases s with
      | expression e span =>
        obtain rfl : rest = [] := by simpa [hexpression] using hlast
        obtain ⟨ks, hks⟩ := hs htest
        exact ⟨_, .expression hks⟩
      | _ => cases hexpression

theorem block_renders {statements : List Stmt} (h : ∀ s ∈ statements, s.Renders) :
    (Block.mk statements span).Renders := by
  intro htest
  rw [Block.isRenderable] at htest
  obtain ⟨ks, hks⟩ := stmtsSpelled_of_renders h htest
  exact ⟨_, .mk hks⟩

end

/-! ### Scanned tokens -/

/-- What is known of the tokens that the scanner gives. -/
def TokenKind.IsScanned : TokenKind → Prop
  | .identifier name => IsName name
  | .integer value => 0 ≤ value.toInt
  | _ => True

theorem isScanned_ofWord {letters : List Char} (h : isWord letters = true) :
    (TokenKind.ofWord (String.ofList letters)).IsScanned := by
  rw [TokenKind.ofWord]
  split
  · trivial
  · next hfree => exact ⟨by rwa [String.toList_ofList], hfree⟩

theorem scanNumber_isScanned {p : Position} {first : Char} {rest : List Char} {step : ScanStep}
    {kind : TokenKind} (h : scanNumber p first rest = .ok step) (hkind : step.kind? = some kind) :
    kind.IsScanned := by
  -- a literal has no sign, so what is in range is not negative
  have hinteger : ∀ (n : Nat) (rest : List Char) (stop : Position) (error : Located ScanError),
      (if n ≤ maxInteger then .ok ⟨some (.integer (Int64.ofNat n)), rest, stop⟩
        else .error error) = Except.ok step → kind.IsScanned := by
    intro n rest stop error hstep
    split at hstep
    · next hn =>
      cases hstep
      cases hkind
      rw [TokenKind.IsScanned, Int64.toInt_ofNat_of_lt (by rw [maxInteger] at hn; omega)]
      exact Int.natCast_nonneg n
    · cases hstep
  rw [scanNumber] at h
  dsimp only at h
  split at h
  · split at h
    · cases h
      cases hkind
      trivial
    · exact hinteger _ _ _ _ h
  · exact hinteger _ _ _ _ h

theorem scanStep_isScanned {p : Position} {c : Char} {rest : List Char} {step : ScanStep}
    {kind : TokenKind} (h : scanStep p c rest = .ok step) (hkind : step.kind? = some kind) :
    kind.IsScanned := by
  rw [scanStep.eq_def] at h
  split at h
  case h_1 =>
    split at h
    · cases h
      cases hkind
    · cases h
      cases hkind
      trivial
  case h_2 | h_3 | h_4 | h_5 =>
    cases h
    -- with `=` behind them or without it, these are marks
    obtain hmark | hmark := kind_scanComparison p _ _ rest
    · rw [hmark] at hkind
      cases hkind
      trivial
    · rw [hmark] at hkind
      cases hkind
      trivial
  case h_6 | h_7 | h_8 | h_9 =>
    cases h
    cases hkind
  case h_10 =>
    obtain ⟨_, _, _, value, hvalue⟩ := scanString_reads h
    rw [hvalue] at hkind
    cases hkind
    trivial
  case h_11 =>
    split at h
    · cases h
      cases hkind
      trivial
    · split at h
      · exact scanNumber_isScanned h hkind
      · split at h
        · next hname =>
          cases h
          cases hkind
          -- all characters of the word were taken because names may contain them
          refine isScanned_ofWord ?_
          rw [isWord, hname, Bool.true_and]
          exact List.all_takeWhile
        · cases h

theorem Scans.isScanned {chars : List Char} {p : Position} {tokens : List Token}
    (h : Scans chars p tokens) : ∀ token ∈ tokens, token.kind.IsScanned := by
  induction h with
  | stop => simp [TokenKind.IsScanned]
  | skip _ _ _ ih => exact ih
  | token hstep hkind _ ih => exact List.forall_mem_cons.mpr ⟨scanStep_isScanned hstep hkind, ih⟩

/-! ### Results of readers -/

/-- Only scanned tokens are left to be read. -/
def TokenCursor.IsScanned (cursor : TokenCursor) : Prop :=
  ∀ token ∈ cursor.rest, token.kind.IsScanned

namespace Parse

section

variable {α β : Type}

/-- The reader gives only results in `Q` when it reads scanned tokens. -/
def Returns (x : Parse α) (Q : α → Prop) : Prop :=
  ∀ (cursor cursor' : TokenCursor) (a : α), cursor.IsScanned → x.run cursor = .ok (a, cursor') →
    cursor'.IsScanned ∧ Q a

variable {x : Parse α} {f : α → Parse β} {P : α → Prop} {Q : β → Prop}

theorem returns_pure {b : β} (hb : Q b) : Returns (pure b) Q := by
  intro cursor cursor' b' hcursor hrun
  cases hrun
  exact ⟨hcursor, hb⟩

theorem returns_throw {error : Located ParseError} : Returns (throw error) Q := by
  intro cursor cursor' b hcursor hrun
  cases hrun

theorem returns_fail {error : ParseError} : Returns (fail error) Q := by
  intro cursor cursor' b hcursor hrun
  cases hrun

theorem Returns.bind (hx : Returns x P) (hf : ∀ a, P a → Returns (f a) Q) :
    Returns (x >>= f) Q := by
  intro cursor cursor' b hcursor hrun
  rw [StateT.run_bind] at hrun
  cases hfirst : x.run cursor with
  | error e =>
    rw [hfirst] at hrun
    cases hrun
  | ok result =>
    rw [hfirst] at hrun
    obtain ⟨hresult, ha⟩ := hx cursor result.2 result.1 hcursor hfirst
    exact hf result.1 ha result.2 cursor' b hresult hrun

theorem returns_get : Returns get TokenCursor.IsScanned := by
  intro cursor cursor' a hcursor hrun
  cases hrun
  exact ⟨hcursor, hcursor⟩

theorem isScanned_kind {cursor : TokenCursor} (h : cursor.IsScanned) : cursor.kind.IsScanned := by
  rw [TokenCursor.kind]
  split
  · trivial
  · next token rest hrest => exact h token (hrest ▸ List.mem_cons_self)

theorem isScanned_advance {cursor : TokenCursor} (h : cursor.IsScanned) :
    cursor.advance.IsScanned := by
  rw [TokenCursor.advance]
  split
  · exact h
  · next token rest hrest =>
    split
    · exact h
    · exact fun t ht => h t (hrest ▸ List.mem_cons_of_mem token ht)

theorem returns_peek : Returns peek TokenKind.IsScanned :=
  returns_get.bind fun _ h => returns_pure (isScanned_kind h)

theorem returns_lastSpan : Returns lastSpan fun _ => True :=
  returns_get.bind fun _ _ => returns_pure trivial

theorem returns_skip : Returns skip fun _ => True := by
  intro cursor cursor' span hcursor hrun
  cases hrun
  exact ⟨isScanned_advance hcursor, trivial⟩

theorem returns_accept {kind : TokenKind} : Returns (accept kind) fun _ => True := by
  refine returns_peek.bind fun kind' _ => ?_
  split
  · rw [discard_bind]
    exact returns_skip.bind fun _ _ => returns_pure trivial
  · exact returns_pure trivial

theorem returns_expect {kind : TokenKind} {what : Expectation} :
    Returns (expect kind what) fun _ => True := by
  refine returns_peek.bind fun kind' _ => ?_
  split
  · exact returns_skip
  · exact returns_fail

theorem returns_expectName {what : Expectation} :
    Returns (expectName what) fun name => IsName name.value := by
  refine returns_peek.bind fun kind hkind => ?_
  split
  · exact returns_skip.bind fun _ _ => returns_pure hkind
  · exact returns_fail

theorem forall_mem_push {P : α → Prop} {found : Array α} {a : α} (hfound : ∀ b ∈ found.toList, P b)
    (ha : P a) : ∀ b ∈ (found.push a).toList, P b := by
  rw [Array.toList_push]
  exact List.forall_mem_append.mpr ⟨hfound, List.forall_mem_singleton.mpr ha⟩

theorem returns_params : ∀ (fuel : Nat) (found : Array Param),
    (∀ param ∈ found.toList, IsName param.name) →
      Returns (params fuel found) fun names => ∀ param ∈ names, IsName param.name
  | 0, _, _ => returns_fail
  | fuel + 1, found, hfound => by
    rw [params]
    refine returns_expectName.bind fun name hname => ?_
    have hpush := forall_mem_push (a := ⟨name.value, name.span⟩) hfound hname
    refine returns_accept.bind fun more _ => ?_
    split
    · exact returns_params fuel _ hpush
    · rw [discard_bind]
      exact returns_expect.bind fun _ _ => returns_pure hpush

mutual

theorem returns_expr : ∀ (fuel : Nat) (precedence : Precedence),
    Returns (expr fuel precedence) Expr.Renders
  | 0, _ => returns_fail
  | fuel + 1, precedence => by
    rw [expr]
    exact (returns_operand fuel).bind fun left hleft =>
      returns_continued fuel precedence left hleft

theorem returns_continued : ∀ (fuel : Nat) (precedence : Precedence) (left : Expr),
    left.Renders → Returns (continued fuel precedence left) Expr.Renders
  | 0, _, _, _ => returns_fail
  | fuel + 1, precedence, left, hleft => by
    rw [continued]
    refine returns_peek.bind fun kind _ => ?_
    split
    · exact returns_pure hleft
    · split
      · rw [discard_bind]
        refine returns_skip.bind fun _ _ => ?_
        split
        · refine (returns_list fuel .rightParen).bind fun args hargs => ?_
          refine returns_lastSpan.bind fun _ _ => ?_
          exact returns_continued fuel precedence _ (renders_call hleft hargs)
        · refine (returns_expr fuel .lowest).bind fun index hindex => ?_
          refine returns_expect.bind fun _ _ => ?_
          exact returns_continued fuel precedence _ (renders_index hleft hindex)
        · next op _ _ =>
          refine (returns_expr fuel op.precedence).bind fun right hright => ?_
          exact returns_continued fuel precedence _ (renders_binary hleft hright)
      · exact returns_pure hleft

theorem returns_operand : ∀ fuel : Nat, Returns (operand fuel) Expr.Renders
  | 0 => returns_fail
  | fuel + 1 => by
    refine returns_peek.bind fun kind hkind => ?_
    split
    · exact returns_fail
    · refine returns_skip.bind fun span _ => ?_
      cases kind with
      | identifier name => exact returns_pure fun _ => ⟨_, .identifier hkind⟩
      | integer value => exact returns_pure fun _ => ⟨_, .integer hkind⟩
      | float value => exact returns_pure fun htest => by cases htest
      | string value => exact returns_pure renders_string
      | keyword word =>
        cases word with
        | trueWord => exact returns_pure fun _ => ⟨_, .boolean⟩
        | falseWord => exact returns_pure fun _ => ⟨_, .boolean⟩
        | nullWord => exact returns_pure fun _ => ⟨_, .null⟩
        | ifWord => exact returns_conditional fuel span
        | fnWord => exact returns_function fuel span
        | _ => exact returns_throw
      | mark m =>
        cases m with
        | bang => exact returns_unary fuel .not span
        | minus => exact returns_unary fuel .negate span
        | leftParen =>
          refine (returns_expr fuel .lowest).bind fun inner hinner => ?_
          rw [discard_bind]
          exact returns_expect.bind fun _ _ => returns_pure hinner
        | leftBracket =>
          refine (returns_list fuel .rightBracket).bind fun elements helements => ?_
          exact returns_lastSpan.bind fun _ _ => returns_pure (renders_array helements)
        | leftBrace =>
          refine (returns_entries fuel #[] (by simp)).bind fun entries hentries => ?_
          exact returns_expect.bind fun _ _ => returns_pure (renders_hash hentries)
        | _ => exact returns_throw
      | endOfInput => exact returns_throw

theorem returns_unary : ∀ (fuel : Nat) (op : UnaryOp) (start : Span),
    Returns (unary fuel op start) Expr.Renders
  | 0, _, _ => returns_fail
  | fuel + 1, op, start => by
    rw [unary]
    exact (returns_expr fuel .unary).bind fun inner hinner => returns_pure (renders_unary hinner)

theorem returns_conditional : ∀ (fuel : Nat) (start : Span),
    Returns (conditional fuel start) Expr.Renders
  | 0, _ => returns_fail
  | fuel + 1, start => by
    rw [conditional, discard_bind]
    refine returns_expect.bind fun _ _ => ?_
    refine (returns_expr fuel .lowest).bind fun condition hcondition => ?_
    rw [discard_bind]
    refine returns_expect.bind fun _ _ => ?_
    refine (returns_block fuel).bind fun thenBranch hthen => ?_
    refine (returns_alternative fuel).bind fun elseBranch helse => ?_
    exact returns_lastSpan.bind fun _ _ =>
      returns_pure (renders_conditional hcondition hthen helse)

theorem returns_alternative : ∀ fuel : Nat, Returns (alternative fuel) ElseRenders
  | 0 => returns_fail
  | fuel + 1 => by
    rw [alternative]
    refine returns_accept.bind fun found _ => ?_
    split
    · refine returns_peek.bind fun kind _ => ?_
      split
      · refine returns_skip.bind fun start _ => ?_
        refine (returns_conditional fuel start).bind fun nested hnested => returns_pure ?_
        exact elseRenders_some (block_renders (by simpa [Stmt.Renders] using hnested))
      · exact (returns_block fuel).bind fun block hblock => returns_pure (elseRenders_some hblock)
    · exact returns_pure elseRenders_none

theorem returns_function : ∀ (fuel : Nat) (start : Span),
    Returns (function fuel start) Expr.Renders
  | 0, _ => returns_fail
  | fuel + 1, start => by
    have hbody : ∀ names : List Param, (∀ param ∈ names, IsName param.name) →
        Returns (block fuel >>= fun body =>
          pure (Expr.function none names body (start.join body.span))) Expr.Renders :=
      fun names hnames => (returns_block fuel).bind fun body hbody =>
        returns_pure (renders_function hnames hbody)
    rw [function, discard_bind]
    refine returns_expect.bind fun _ _ => ?_
    refine returns_accept.bind fun found _ => ?_
    split
    · rw [pure_bind]
      exact hbody [] (by simp)
    · exact (returns_params fuel #[] (by simp)).bind hbody

theorem returns_entries : ∀ (fuel : Nat) (found : Array (Expr × Expr)),
    (∀ entry ∈ found.toList, entry.1.Renders ∧ entry.2.Renders) →
      Returns (entries fuel found) fun es => ∀ entry ∈ es, entry.1.Renders ∧ entry.2.Renders
  | 0, _, _ => returns_fail
  | fuel + 1, found, hfound => by
    rw [entries]
    refine returns_peek.bind fun kind _ => ?_
    split
    · exact returns_pure hfound
    · refine (returns_expr fuel .lowest).bind fun key hkey => ?_
      rw [discard_bind]
      refine returns_expect.bind fun _ _ => ?_
      refine (returns_expr fuel .lowest).bind fun value hvalue => ?_
      have hpush := forall_mem_push (a := (key, value)) hfound ⟨hkey, hvalue⟩
      refine returns_accept.bind fun more _ => ?_
      split
      · exact returns_entries fuel _ hpush
      · exact returns_pure hpush

theorem returns_list : ∀ (fuel : Nat) (closer : Mark),
    Returns (list fuel closer) fun es => ∀ e ∈ es, e.Renders
  | 0, _ => returns_fail
  | fuel + 1, closer => by
    rw [list]
    refine returns_accept.bind fun found _ => ?_
    split
    · exact returns_pure (by simp)
    · exact returns_items fuel closer #[] (by simp)

theorem returns_items : ∀ (fuel : Nat) (closer : Mark) (found : Array Expr),
    (∀ e ∈ found.toList, e.Renders) →
      Returns (items fuel closer found) fun es => ∀ e ∈ es, e.Renders
  | 0, _, _, _ => returns_fail
  | fuel + 1, closer, found, hfound => by
    rw [items]
    refine (returns_expr fuel .lowest).bind fun item hitem => ?_
    have hpush := forall_mem_push hfound hitem
    have hrest : ∀ more : Bool, Returns (if more then items fuel closer (found.push item) else do
        discard <| expect (.mark closer) (.listEnd closer)
        return (found.push item).toList) fun es => ∀ e ∈ es, e.Renders := by
      intro more
      split
      · exact returns_items fuel closer _ hpush
      · rw [discard_bind]
        exact returns_expect.bind fun _ _ => returns_pure hpush
    refine returns_accept.bind fun comma _ => ?_
    split
    · refine returns_peek.bind fun kind _ => ?_
      rw [pure_bind]
      exact hrest _
    · rw [pure_bind]
      exact hrest false

theorem returns_block : ∀ fuel : Nat, Returns (block fuel) Block.Renders
  | 0 => returns_fail
  | fuel + 1 => by
    rw [block]
    refine returns_expect.bind fun _ _ => ?_
    refine (returns_statements fuel _ #[] (by simp)).bind fun body hbody => ?_
    exact returns_expect.bind fun _ _ => returns_pure (block_renders hbody)

theorem returns_statements : ∀ (fuel : Nat) (closer : Option Mark) (found : Array Stmt),
    (∀ s ∈ found.toList, s.Renders) →
      Returns (statements fuel closer found) fun body => ∀ s ∈ body, s.Renders
  | 0, _, _, _ => returns_fail
  | fuel + 1, closer, found, hfound => by
    rw [statements]
    refine returns_peek.bind fun kind _ => ?_
    split
    · exact returns_pure hfound
    · refine (returns_statement fuel).bind fun s hs => ?_
      exact returns_statements fuel closer _ (forall_mem_push hfound hs)

theorem returns_statement : ∀ fuel : Nat, Returns (statement fuel) Stmt.Renders
  | 0 => returns_fail
  | fuel + 1 => by
    rw [statement]
    refine returns_peek.bind fun kind hkind => ?_
    split
    · exact returns_declaration fuel .constant
    · exact returns_declaration fuel .mutable
    · refine returns_skip.bind fun start _ => ?_
      refine (returns_returned fuel).bind fun value hvalue => ?_
      rw [discard_bind]
      refine returns_accept.bind fun _ _ => ?_
      exact returns_lastSpan.bind fun _ _ => returns_pure (renders_ret hvalue)
    · refine returns_get.bind fun cursor _ => ?_
      split
      · refine returns_skip.bind fun start _ => ?_
        rw [discard_bind]
        refine returns_skip.bind fun _ _ => ?_
        refine (returns_expr fuel .lowest).bind fun value hvalue => ?_
        rw [discard_bind]
        refine returns_accept.bind fun _ _ => ?_
        exact returns_lastSpan.bind fun _ _ => returns_pure (renders_assign hkind hvalue)
      · exact returns_expressionStatement fuel
    · exact returns_expressionStatement fuel

theorem returns_declaration : ∀ (fuel : Nat) (mutability : Mutability),
    Returns (declaration fuel mutability) Stmt.Renders
  | 0, _ => returns_fail
  | fuel + 1, mutability => by
    rw [declaration]
    refine returns_skip.bind fun start _ => ?_
    refine returns_expectName.bind fun name hname => ?_
    rw [discard_bind]
    refine returns_expect.bind fun _ _ => ?_
    refine (returns_expr fuel .lowest).bind fun value hvalue => ?_
    rw [discard_bind]
    refine returns_accept.bind fun _ _ => ?_
    exact returns_lastSpan.bind fun _ _ => returns_pure (renders_declare hname hvalue)

theorem returns_returned : ∀ fuel : Nat,
    Returns (returned fuel) fun value => ∀ e ∈ value, e.Renders
  | 0 => returns_fail
  | fuel + 1 => by
    rw [returned]
    refine returns_peek.bind fun kind _ => ?_
    split
    · exact returns_pure (by simp)
    · refine (returns_expr fuel .lowest).bind fun value hvalue => ?_
      exact returns_pure (by simpa using hvalue)

theorem returns_expressionStatement : ∀ fuel : Nat,
    Returns (expressionStatement fuel) Stmt.Renders
  | 0 => returns_fail
  | fuel + 1 => by
    rw [expressionStatement]
    refine (returns_expr fuel .lowest).bind fun value hvalue => ?_
    rw [discard_bind]
    exact returns_accept.bind fun _ _ => returns_pure hvalue

end

end

end Parse

/-! ### Programs -/

/-- What the parser reads from scanned tokens is written by tokens if it passes the test. -/
theorem parse_spelled {tokens : List Token} {ast : Ast}
    (htokens : ∀ token ∈ tokens, token.kind.IsScanned) (h : parse tokens = .ok ast)
    (htest : ast.isRenderable = true) : ∃ ks, StmtsSpelled ast.statements ks := by
  rw [parse] at h
  split at h
  · next statements cursor hrun =>
    cases h
    have hreturns := Parse.returns_statements (Parse.fuelFor tokens.length) none #[] (by simp)
    obtain ⟨-, hstatements⟩ := hreturns ⟨tokens, .single {}⟩ cursor statements htokens hrun
    exact stmtsSpelled_of_renders hstatements htest
  · cases h

/-- A text is parsed when it is scanned and its tokens are parsed. -/
theorem parseSource_ok_iff {file source : String} {ast : Ast} :
    parseSource file source = .ok ast ↔
      ∃ tokens, scan source = .ok tokens ∧ parse tokens = .ok ast := by
  rw [parseSource, scanSource]
  constructor
  · intro h
    cases hscan : scan source with
    | error e =>
      rw [hscan] at h
      cases h
    | ok tokens =>
      rw [hscan] at h
      replace h : (parse tokens).mapError (Diagnostic.ofParseError file source) = .ok ast := h
      refine ⟨tokens, rfl, ?_⟩
      cases hparse : parse tokens with
      | error e =>
        rw [hparse] at h
        cases h
      | ok ast' =>
        rw [hparse] at h
        cases h
        rfl
  · rintro ⟨tokens, hscan, hparse⟩
    rw [hscan]
    show (parse tokens).mapError _ = _
    rw [hparse]
    rfl

theorem parseSource_spelled {file source : String} {ast : Ast}
    (h : parseSource file source = .ok ast) (htest : ast.isRenderable = true) :
    ∃ ks, StmtsSpelled ast.statements ks := by
  obtain ⟨tokens, hscan, hparse⟩ := parseSource_ok_iff.mp h
  exact parse_spelled (scan_ok_iff.mp hscan).isScanned hparse htest

end Bytescript
