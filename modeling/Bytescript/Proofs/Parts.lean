/-
The parts of a tree, as the compiler goes through them.

What the compiler is asked to do is a `Piece`: to add the code of a program, a block, a statement or
an expression. Most pieces are done in one way: names are looked up or declared (`Piece.prepare`),
the parts are compiled one after another (`Piece.parts`), and a few instructions of the piece's own
follow (`Finishes`). `done` says so of all pieces but conditionals, whose arms are compiled apart,
and `conditional_ok` says how these are done. The instructions of a piece's own are few, and all
have its span (`Piece.Yields`).

Main statement: `Kept.compile`. What looking up and declaring names, adding constants and entering
and leaving functions keep is kept by every piece.
-/
import Bytescript.Proofs.Emission

namespace Bytescript

/-- The instructions that put a value where it is found again: in a slot, or in a closure. -/
def Opcode.Retains (op : Opcode) : Prop :=
  op ∈ [Opcode.setGlobal, .assignGlobal, .setLocal, .assignLocal, .closure]

instance (op : Opcode) : Decidable op.Retains :=
  inferInstanceAs (Decidable (op ∈ _))

namespace Compile

variable {st st₁ : CompilerState} {code code₁ : Fragment}

/-- What the compiler is asked to do. -/
inductive Piece where
  | program (statements : List Stmt)
  | block (purpose : Purpose) (b : Block)
  | alternative (arm : Option Block) (span : Span)
  | stmt (s : Stmt)
  | expr (e : Expr)

namespace Piece

/-- Adds the code of a piece. -/
def compile : Piece → Fragment → Compile Fragment
  | program statements => stmts statements
  | block purpose b => Compile.block purpose b
  | alternative arm span => Compile.alternative arm span
  | stmt s => Compile.stmt s
  | expr e => Compile.expr e

/-- The statements of a block that gives a value. If the last one is an expression, it is taken as
that. -/
def ofValued : List Stmt → List Piece
  | [] => []
  | [.expression e _] => [.expr e]
  | s :: rest => .stmt s :: ofValued rest

/-- The parts whose code is added one after another, in this order. -/
def parts : Piece → List Piece
  | program statements => statements.map .stmt
  | block _ (.mk statements _) => ofValued statements
  | alternative none _ => []
  | alternative (some arm) _ => [.block .arm arm]
  | stmt (.expression e _) => [.expr e]
  | stmt (.declare _ _ value _) => [.expr value]
  | stmt (.assign _ value _) => [.expr value]
  | stmt (.ret none _) => []
  | stmt (.ret (some value) _) => [.expr value]
  | expr (.unary _ operand _) => [.expr operand]
  | expr (.binary op left right _) =>
    if op.isRightFirst then [.expr right, .expr left] else [.expr left, .expr right]
  | expr (.call callee args _) => .expr callee :: args.map .expr
  | expr (.array elements _) => elements.map .expr
  | expr (.hash pairs _) => pairs.flatMap fun pair => [.expr pair.1, .expr pair.2]
  | expr (.index object index _) => [.expr object, .expr index]
  | expr _ => []

/-- The span of the value of a block: that of the last statement, if it is an expression. -/
def valueSpan (span : Span) : List Stmt → Span
  | [] => span
  | [.expression _ last] => last
  | _ :: rest => valueSpan span rest

/-- The span of the instructions that come from a piece itself, and not from its parts. It is that
of the expression, the statement or the block, or of the conditional that has no other arm. -/
def span : Piece → Span
  | program _ => {}
  | block _ (.mk statements span) => valueSpan span statements
  | alternative _ span => span
  | stmt s => s.span
  | expr e => e.span

/-- The instructions that push the value of a name. -/
def loadOpcodes : List Opcode :=
  [.getGlobal, .getLocal, .getFree, .getBuiltin, .currentClosure]

/-- The instructions that come from a piece itself. -/
def opcodes : Piece → List Opcode
  | program _ => []
  | block .arm _ => [.null]
  | block .body _ => [.ret, .returnValue]
  | alternative .. => [.null]
  | stmt (.expression ..) => [.pop]
  | stmt (.declare ..) => [.setGlobal, .setLocal]
  | stmt (.assign ..) => [.assignGlobal, .assignLocal]
  | stmt (.ret none _) => [.ret]
  | stmt (.ret (some _) _) => [.returnValue]
  | expr (.identifier ..) => loadOpcodes
  | expr (.integer ..) | expr (.float ..) | expr (.string ..) => [.constant]
  | expr (.boolean value _) => [if value then .true else .false]
  | expr (.null _) => [.null]
  | expr (.unary op ..) => [unaryOpcode op]
  | expr (.binary op ..) => [(binaryOpcode op).1]
  | expr (.conditional ..) => [.jumpNotTruthy, .jump]
  | expr (.function ..) => .closure :: loadOpcodes
  | expr (.call ..) => [.call]
  | expr (.array ..) => [.array]
  | expr (.hash ..) => [.hash]
  | expr (.index ..) => [.index]

/-- The instruction may come from the piece itself. -/
structure Yields (t : Piece) (i : Located Instruction) : Prop where
  opcode : i.value.opcode ∈ t.opcodes
  span : i.span = t.span

/-- What is done with names before the parts are compiled. -/
def prepare : Piece → Compile Unit
  | stmt (.declare mutability name value span) => discard (declareName mutability name value span)
  | stmt (.assign name _ span) => discard (resolveTarget name span)
  | _ => pure ()

/-- Adds the code of several pieces. -/
def compileAll : List Piece → Fragment → Compile Fragment
  | [], code => return code
  | t :: rest, code => do
    let code ← t.compile code
    compileAll rest code

theorem ofValued_cons {s : Stmt} {rest : List Stmt}
    (h : rest = [] → ∀ e span, s ≠ .expression e span) :
    ofValued (s :: rest) = .stmt s :: ofValued rest := by
  rw [ofValued]
  rintro e span rfl rfl
  exact h rfl e span rfl

theorem valueSpan_cons {span : Span} {s : Stmt} {rest : List Stmt}
    (h : rest = [] → ∀ e span, s ≠ .expression e span) :
    valueSpan span (s :: rest) = valueSpan span rest := by
  rw [valueSpan]
  rintro e last rfl rfl
  exact h rfl e last rfl

theorem sizeOf_le_of_mem_ofValued {t : Piece} {statements : List Stmt}
    (h : t ∈ ofValued statements) : sizeOf t ≤ sizeOf statements := by
  induction statements using ofValued.induct with
  | case1 => simp [ofValued] at h
  | case2 e span =>
    rw [ofValued, List.mem_singleton] at h
    simp [h]
    omega
  | case3 s rest hne ih =>
    rw [ofValued_cons fun hrest e span hs => hne e span hs hrest] at h
    rcases List.mem_cons.mp h with rfl | h
    · simp
    · have := ih h
      simp
      omega

/-- Parts are smaller. -/
theorem sizeOf_lt_of_mem_parts {t part : Piece} (h : part ∈ t.parts) : sizeOf part < sizeOf t := by
  cases t with
  | program statements =>
    obtain ⟨s, hs, rfl⟩ := List.mem_map.mp h
    have := List.sizeOf_lt_of_mem hs
    simp
    omega
  | block purpose b =>
    obtain ⟨statements, span⟩ := b
    have := sizeOf_le_of_mem_ofValued h
    simp
    omega
  | alternative arm span =>
    cases arm with
    | none => simp [parts] at h
    | some arm =>
      obtain ⟨start, stop⟩ := span
      rw [parts, List.mem_singleton] at h
      simp [h]
      omega
  | stmt s =>
    cases s with
    | expression e | declare _ _ e | assign _ e =>
      rw [parts, List.mem_singleton] at h
      simp [h]
      omega
    | ret value =>
      cases value with
      | none => simp [parts] at h
      | some value =>
        rw [parts, List.mem_singleton] at h
        simp [h]
        omega
  | expr e =>
    cases e with
    | unary _ operand =>
      rw [parts, List.mem_singleton] at h
      simp [h]
      omega
    | binary op left right =>
      rw [parts] at h
      split at h <;>
      · rcases List.mem_pair.mp h with rfl | rfl <;> simp <;> omega
    | index object index =>
      rcases List.mem_pair.mp h with rfl | rfl <;> simp <;> omega
    | call callee args =>
      rcases List.mem_cons.mp h with rfl | h
      · simp
        omega
      · obtain ⟨e, he, rfl⟩ := List.mem_map.mp h
        have := List.sizeOf_lt_of_mem he
        simp
        omega
    | array elements =>
      obtain ⟨e, he, rfl⟩ := List.mem_map.mp h
      have := List.sizeOf_lt_of_mem he
      simp
      omega
    | hash pairs =>
      obtain ⟨⟨key, value⟩, hpair, h⟩ := List.mem_flatMap.mp h
      have := List.sizeOf_lt_of_mem hpair
      rcases List.mem_pair.mp h with rfl | rfl <;> simp at this ⊢ <;> omega
    | identifier | integer | float | string | boolean | null | conditional | function =>
      simp [parts] at h

/-- Is the piece a conditional? Its arms are compiled apart. -/
def IsConditional (t : Piece) : Prop :=
  ∃ condition thenBranch elseBranch span,
    t = .expr (.conditional condition thenBranch elseBranch span)

/-- Pieces are looked at after their parts, functions after their bodies. -/
theorem induction {motive : Piece → Prop}
    (conditional : ∀ condition thenBranch elseBranch span, motive (.expr condition) →
      motive (.block .arm thenBranch) → motive (.alternative elseBranch span) →
      motive (.expr (.conditional condition thenBranch elseBranch span)))
    (other : ∀ t, ¬ t.IsConditional → (∀ part ∈ t.parts, motive part) →
      (∀ name? params body span, t = .expr (.function name? params body span) →
        motive (.block .body body)) → motive t) (t : Piece) : motive t := by
  induction hsize : sizeOf t using Nat.strongRecOn generalizing t with
  | ind size ih =>
    subst hsize
    by_cases hconditional : t.IsConditional
    · obtain ⟨condition, thenBranch, elseBranch, ⟨start, stop⟩, rfl⟩ := hconditional
      refine conditional _ _ _ _ (ih _ ?_ _ rfl) (ih _ ?_ _ rfl) (ih _ ?_ _ rfl) <;>
      · simp
        omega
    · refine other t hconditional (fun part hpart => ih _ (sizeOf_lt_of_mem_parts hpart) _ rfl) ?_
      rintro name? params body ⟨start, stop⟩ rfl
      refine ih _ ?_ _ rfl
      simp
      omega

end Piece

/-! ### How pieces are done -/

open Piece (compileAll)

theorem exprs_eq (es : List Expr) (code : Fragment) :
    exprs es code = compileAll (es.map .expr) code := by
  induction es generalizing code with
  | nil => rw [exprs, List.map_nil, compileAll]
  | cons e rest ih =>
    rw [exprs, List.map_cons, compileAll]
    simp only [ih]
    rfl

theorem entries_eq (pairs : List (Expr × Expr)) (code : Fragment) :
    entries pairs code =
      compileAll (pairs.flatMap fun pair => [.expr pair.1, .expr pair.2]) code := by
  induction pairs generalizing code with
  | nil => rw [entries, List.flatMap_nil, compileAll]
  | cons pair rest ih =>
    obtain ⟨key, value⟩ := pair
    rw [entries]
    simp only [List.flatMap_cons, List.cons_append, List.nil_append, compileAll, ih]
    rfl

theorem stmts_eq (statements : List Stmt) (code : Fragment) :
    stmts statements code = compileAll (statements.map .stmt) code := by
  induction statements generalizing code with
  | nil => rw [stmts, List.map_nil, compileAll]
  | cons s rest ih =>
    rw [stmts, List.map_cons, compileAll]
    simp only [ih]
    rfl

/-- How a piece is finished when its parts are compiled, which leaves the state `st'`: with its own
instructions. The piece was begun in the state `st`. -/
inductive Finishes : Piece → CompilerState → CompilerState → List (Located Instruction) →
    CompilerState → Prop where
  | plain {t : Piece} {st st' : CompilerState} {own : List (Located Instruction)} :
      (∀ i ∈ own, ¬ i.value.opcode.Retains) → (∀ i ∈ own, t.Yields i) → Finishes t st st' own st'
  | constant {t : Piece} {st st' st₁ : CompilerState} {c : Constant} {span : Span} {n : Nat} :
      (∀ f, c ≠ .function f) → (addConstant c span).run st' = .ok (n, st₁) →
      t.Yields ⟨⟨.constant, [n]⟩, span⟩ → Finishes t st st' [⟨⟨.constant, [n]⟩, span⟩] st₁
  | identifier {name : String} {span : Span} {s : Symbol} {st st' st₁ : CompilerState} :
      (resolve name span).run st' = .ok (s, st₁) →
      Finishes (.expr (.identifier name span)) st st' [⟨loadInstruction s, span⟩] st₁
  | function {name? : Option String} {params : List Param} {body : Block} {span : Span}
      {st st' entered last : CompilerState} {bodyCode : Fragment} :
      (enterFunction name? params).run st' = .ok ((), entered) →
      (block .body body ({} : Fragment)).run entered = .ok (bodyCode, last) →
      Finishes (.expr (.function name? params body span)) st st'
        (loads last.scopes.current.captures.toList span ++ [⟨⟨.closure,
          [last.constants.size, last.scopes.current.captures.toList.length]⟩, span⟩])
        ⟨last.scopes.leave?.getD {}, last.constants.push
          (.function (functionCode name? params bodyCode last.scopes.current))⟩
  | declare {mutability : Mutability} {name : String} {value : Expr} {span : Span} {s : Symbol}
      {st declared st' : CompilerState} :
      (declareName mutability name value span).run st = .ok (s, declared) →
      Finishes (.stmt (.declare mutability name value span)) st st' [⟨storeInstruction s, span⟩] st'
  | assign {name : String} {value : Expr} {span : Span} {s : Symbol}
      {st found st' : CompilerState} :
      (resolveTarget name span).run st = .ok (s, found) →
      Finishes (.stmt (.assign name value span)) st st' [⟨assignInstruction s, span⟩] st'

/-- The piece is done by preparing names, compiling the parts and adding own instructions. -/
def Done (t : Piece) (code : Fragment) (st : CompilerState) (code₁ : Fragment)
    (st₁ : CompilerState) : Prop :=
  ∃ st₀ code' st' own, t.prepare.run st = .ok ((), st₀) ∧
    (compileAll t.parts code).run st₀ = .ok (code', st') ∧ Finishes t st st' own st₁ ∧
    code'.Extends own code₁

/-- A piece that is done with an instruction that retains nothing, after its parts. -/
theorem Done.of_emit {t : Piece} {code' : Fragment} {op : Opcode} {operands : List Nat}
    {span : Span} (hprepare : t.prepare = pure ())
    (hparts : (compileAll t.parts code).run st = .ok (code', st₁)) (hop : ¬ op.Retains)
    (hyields : t.Yields ⟨⟨op, operands⟩, span⟩) :
    Done t code st (code'.emit op operands span) st₁ := by
  refine ⟨st, code', st₁, [⟨⟨op, operands⟩, span⟩], by rw [hprepare]; rfl, hparts, ?_,
    (Fragment.Extends.refl _).emit op operands span⟩
  exact .plain (List.forall_mem_singleton.mpr hop) (List.forall_mem_singleton.mpr hyields)

/-- A piece that is done when its parts are. -/
theorem Done.of_parts {t : Piece} (hprepare : t.prepare = pure ())
    (hparts : (compileAll t.parts code).run st = .ok (code₁, st₁)) : Done t code st code₁ st₁ :=
  ⟨st, code₁, st₁, [], by rw [hprepare]; rfl, hparts, .plain (by simp) (by simp), .refl _⟩

theorem compileAll_singleton (t : Piece) (code : Fragment) :
    compileAll [t] code = t.compile code := by
  rw [compileAll]
  simp only [compileAll, bind_pure]

theorem compileAll_cons_ok {t : Piece} {rest : List Piece} :
    (compileAll (t :: rest) code).run st = .ok (code₁, st₁) ↔
      ∃ code' st', (t.compile code).run st = .ok (code', st') ∧
        (compileAll rest code').run st' = .ok (code₁, st₁) := by
  rw [compileAll, bind_ok]

/-- How the statements of a block are compiled. -/
theorem block_ok {purpose : Purpose} {span : Span} {statements : List Stmt}
    (h : (block purpose (.mk statements span) code).run st = .ok (code₁, st₁)) :
    ∃ code' own, (compileAll (Piece.ofValued statements) code).run st = .ok (code', st₁) ∧
      (∀ i ∈ own, ¬ i.value.opcode.Retains) ∧
      (∀ i ∈ own, (Piece.block purpose (.mk statements span)).Yields i) ∧
      code'.Extends own code₁ := by
  have hemit : ∀ {t : Piece} {pieces : List Piece} {code code' st} {op : Opcode} {span : Span},
      (compileAll pieces code).run st = .ok (code', st₁) → ¬ op.Retains →
      t.Yields ⟨⟨op, []⟩, span⟩ → ∃ c own, (compileAll pieces code).run st = .ok (c, st₁) ∧
        (∀ i ∈ own, ¬ i.value.opcode.Retains) ∧ (∀ i ∈ own, t.Yields i) ∧
        c.Extends own (code'.emit op [] span) := by
    intro t pieces code code' st op span hpieces hop hyields
    exact ⟨code', [⟨⟨op, []⟩, span⟩], hpieces, List.forall_mem_singleton.mpr hop,
      List.forall_mem_singleton.mpr hyields, (Fragment.Extends.refl _).emit ..⟩
  induction statements generalizing code st with
  | nil =>
    have hnil : (compileAll (Piece.ofValued []) code).run st = .ok (code, st) := rfl
    cases purpose <;>
    · rw [block_nil] at h
      obtain ⟨rfl, rfl⟩ := pure_ok.mp h
      exact hemit hnil (by decide) ⟨by simp [Piece.opcodes], rfl⟩
  | cons s rest ih =>
    by_cases hrest : rest = [] → (∀ e span, s ≠ .expression e span) ∧
        (purpose = .body → ∀ value span, s ≠ .ret value span)
    · rw [block_cons hrest, bind_ok] at h
      obtain ⟨c, s', hfirst, h⟩ := h
      obtain ⟨code', own, hparts, hown, hyields, hextends⟩ := ih h
      have hne : rest = [] → ∀ e span, s ≠ .expression e span := fun hnil => (hrest hnil).1
      refine ⟨code', own, ?_, hown, fun i hi => ⟨?_, ?_⟩, hextends⟩
      · rw [Piece.ofValued_cons hne]
        exact compileAll_cons_ok.mpr ⟨c, s', hfirst, hparts⟩
      · cases purpose <;> exact (hyields i hi).opcode
      · rw [(hyields i hi).span, Piece.span, Piece.span, Piece.valueSpan_cons hne]
    · -- the last statement gives the value
      obtain ⟨rfl, hlast⟩ := Classical.not_imp.mp hrest
      cases s with
      | expression e span' =>
        rw [Piece.ofValued, compileAll_singleton]
        cases purpose with
        | arm =>
          rw [block_arm_expression] at h
          exact ⟨code₁, [], h, by simp, by simp, .refl _⟩
        | body =>
          rw [block_body_expression, bind_ok] at h
          obtain ⟨code', st', hvalue, h⟩ := h
          obtain ⟨rfl, rfl⟩ := pure_ok.mp h
          rw [← compileAll_singleton]
          exact hemit (compileAll_singleton _ _ ▸ hvalue) (by decide)
            ⟨by simp [Piece.opcodes], rfl⟩
      | ret value span' =>
        cases purpose with
        | arm => simp at hlast
        | body =>
          rw [block_body_ret] at h
          refine ⟨code₁, [], ?_, by simp, by simp, .refl _⟩
          rw [Piece.ofValued_cons (by simp), Piece.ofValued, compileAll_singleton]
          exact h
      | declare | assign => simp at hlast

/-- Statements are done with an instruction after their expression. -/
theorem done_stmt {s : Stmt} (h : (stmt s code).run st = .ok (code₁, st₁)) :
    Done (.stmt s) code st code₁ st₁ := by
  cases s with
  | expression e span =>
    simp only [stmt, bind_ok, pure_ok] at h
    obtain ⟨code', st', hvalue, rfl, rfl⟩ := h
    exact .of_emit rfl (compileAll_singleton _ _ ▸ hvalue) (by decide)
      ⟨List.mem_singleton_self _, rfl⟩
  | declare mutability name value span =>
    rw [stmt] at h
    obtain ⟨s, st₀, hdeclare, h⟩ := bind_ok.mp h
    obtain ⟨code', st', hvalue, h⟩ := bind_ok.mp h
    obtain ⟨rfl, -, rfl⟩ := storeNew_ok h
    refine ⟨st₀, code', st', _, discard_ok.mpr ⟨_, hdeclare⟩, compileAll_singleton _ _ ▸ hvalue,
      .declare hdeclare, ?_⟩
    exact (Fragment.Extends.refl code').emit ..
  | assign name value span =>
    simp only [stmt, bind_ok, pure_ok] at h
    obtain ⟨s, st₀, htarget, code', st', hvalue, rfl, rfl⟩ := h
    refine ⟨st₀, code', st', _, discard_ok.mpr ⟨_, htarget⟩, compileAll_singleton _ _ ▸ hvalue,
      .assign htarget, ?_⟩
    rw [assign, assignInstruction]
    split <;> exact (Fragment.Extends.refl code').emit ..
  | ret value span =>
    cases value with
    | none =>
      rw [stmt] at h
      obtain ⟨rfl, rfl⟩ := pure_ok.mp h
      exact .of_emit rfl (pure_ok.mpr ⟨rfl, rfl⟩) (by decide) ⟨List.mem_singleton_self _, rfl⟩
    | some value =>
      simp only [stmt, bind_ok, pure_ok] at h
      obtain ⟨code', st', hvalue, rfl, rfl⟩ := h
      exact .of_emit rfl (compileAll_singleton _ _ ▸ hvalue) (by decide)
        ⟨List.mem_singleton_self _, rfl⟩

/-- A constant that is no function is pushed. -/
theorem Done.of_constant {t : Piece} {c : Constant} {span : Span} (hprepare : t.prepare = pure ())
    (hparts : t.parts = []) (hc : ∀ f, c ≠ .function f)
    (hyields : ∀ n, t.Yields ⟨⟨.constant, [n]⟩, span⟩)
    (h : (do
      let index ← addConstant c span
      return code.emit .constant [index] span : Compile Fragment).run st = .ok (code₁, st₁)) :
    Done t code st code₁ st₁ := by
  obtain ⟨n, st', hadd, h⟩ := bind_ok.mp h
  obtain ⟨rfl, rfl⟩ := pure_ok.mp h
  refine ⟨st, code, st, [⟨⟨.constant, [n]⟩, span⟩], by rw [hprepare]; rfl, by rw [hparts]; rfl,
    .constant hc hadd (hyields n), (Fragment.Extends.refl code).emit ..⟩

/-- Expressions that are no conditionals are done with own instructions after their operands. -/
theorem done_expr {e : Expr} (hne : ¬ (Piece.expr e).IsConditional)
    (h : (expr e code).run st = .ok (code₁, st₁)) : Done (.expr e) code st code₁ st₁ := by
  cases e with
  | identifier name span =>
    rw [expr] at h
    obtain ⟨s, st', hresolve, h⟩ := bind_ok.mp h
    obtain ⟨rfl, rfl⟩ := pure_ok.mp h
    rw [load_eq]
    exact ⟨st, code, st, _, rfl, rfl, .identifier hresolve, (Fragment.Extends.refl code).emit ..⟩
  | integer value span =>
    rw [expr] at h
    exact .of_constant (c := .integer value) rfl rfl (by simp)
      (fun _ => ⟨List.mem_singleton_self _, rfl⟩) h
  | float value span =>
    rw [expr] at h
    exact .of_constant (c := .float value) rfl rfl (by simp)
      (fun _ => ⟨List.mem_singleton_self _, rfl⟩) h
  | string value span =>
    rw [expr] at h
    exact .of_constant (c := .string value) rfl rfl (by simp)
      (fun _ => ⟨List.mem_singleton_self _, rfl⟩) h
  | boolean value span =>
    rw [expr] at h
    obtain ⟨rfl, rfl⟩ := pure_ok.mp h
    exact .of_emit rfl (pure_ok.mpr ⟨rfl, rfl⟩) (by cases value <;> decide)
      ⟨List.mem_singleton_self _, rfl⟩
  | null span =>
    rw [expr] at h
    obtain ⟨rfl, rfl⟩ := pure_ok.mp h
    exact .of_emit rfl (pure_ok.mpr ⟨rfl, rfl⟩) (by decide) ⟨List.mem_singleton_self _, rfl⟩
  | unary op operand span =>
    simp only [expr, bind_ok, pure_ok] at h
    obtain ⟨code', st', hvalue, rfl, rfl⟩ := h
    exact .of_emit rfl (compileAll_singleton _ _ ▸ hvalue) (by cases op <;> decide)
      ⟨List.mem_singleton_self _, rfl⟩
  | binary op left right span =>
    have hop : ¬ (binaryOpcode op).1.Retains := by cases op <;> decide
    cases hfirst : op.isRightFirst with
    | true =>
      rw [expr_binary_of_rightFirst hfirst] at h
      simp only [bind_ok, pure_ok] at h
      obtain ⟨c, s, hright, code', st', hleft, rfl, rfl⟩ := h
      refine .of_emit rfl ?_ hop ⟨List.mem_singleton_self _, rfl⟩
      rw [Piece.parts, if_pos hfirst]
      exact compileAll_cons_ok.mpr ⟨c, s, hright, compileAll_singleton _ _ ▸ hleft⟩
    | false =>
      rw [expr_binary_of_leftFirst hfirst] at h
      simp only [bind_ok, pure_ok] at h
      obtain ⟨c, s, hleft, code', st', hright, rfl, rfl⟩ := h
      refine .of_emit rfl ?_ hop ⟨List.mem_singleton_self _, rfl⟩
      rw [Piece.parts, if_neg (by simp [hfirst])]
      exact compileAll_cons_ok.mpr ⟨c, s, hleft, compileAll_singleton _ _ ▸ hright⟩
  | conditional condition thenBranch elseBranch span => exact absurd ⟨_, _, _, _, rfl⟩ hne
  | function name? params body span =>
    obtain ⟨entered, bodyCode, last, henter, hbody, -, -, -, -, rfl, rfl⟩ := function_run h
    refine ⟨st, code, st, _, rfl, rfl, .function henter hbody, ?_⟩
    have hloads := (placed_loadAll last.scopes.current.captures.toList span code).extended
    rw [moved_loads] at hloads
    exact hloads.emit ..
  | call callee args span =>
    obtain ⟨-, h⟩ := call_ok h
    simp only [bind_ok, pure_ok] at h
    obtain ⟨c, s, hcallee, code', st', hargs, rfl, rfl⟩ := h
    refine .of_emit rfl (compileAll_cons_ok.mpr ⟨c, s, hcallee, ?_⟩) (by decide)
      ⟨List.mem_singleton_self _, rfl⟩
    rwa [← exprs_eq]
  | array elements span =>
    simp only [expr, bind_ok, pure_ok, limit_ok] at h
    obtain ⟨code', st', helements, _, _, ⟨-, rfl⟩, rfl, rfl⟩ := h
    exact .of_emit rfl (exprs_eq _ _ ▸ helements) (by decide) ⟨List.mem_singleton_self _, rfl⟩
  | hash pairs span =>
    simp only [expr, bind_ok, pure_ok, limit_ok] at h
    obtain ⟨code', st', hentries, _, _, ⟨-, rfl⟩, rfl, rfl⟩ := h
    exact .of_emit rfl (entries_eq _ _ ▸ hentries) (by decide) ⟨List.mem_singleton_self _, rfl⟩
  | index object index span =>
    simp only [expr, bind_ok, pure_ok] at h
    obtain ⟨c, s, hobject, code', st', hindex, rfl, rfl⟩ := h
    exact .of_emit rfl
      (compileAll_cons_ok.mpr ⟨c, s, hobject, compileAll_singleton _ _ ▸ hindex⟩) (by decide)
      ⟨List.mem_singleton_self _, rfl⟩

/-- All pieces but conditionals are done in the same way. -/
theorem done {t : Piece} (hne : ¬ t.IsConditional)
    (h : (t.compile code).run st = .ok (code₁, st₁)) : Done t code st code₁ st₁ := by
  cases t with
  | program statements => exact .of_parts rfl (stmts_eq _ _ ▸ h)
  | block purpose b =>
    obtain ⟨statements, span⟩ := b
    rw [Piece.compile] at h
    obtain ⟨code', own, hparts, hown, hyields, hextends⟩ := block_ok h
    exact ⟨st, code', st₁, own, rfl, hparts, .plain hown hyields, hextends⟩
  | alternative arm span =>
    cases arm with
    | none =>
      rw [Piece.compile, alternative] at h
      obtain ⟨rfl, rfl⟩ := pure_ok.mp h
      exact .of_emit rfl (pure_ok.mpr ⟨rfl, rfl⟩) (by decide) ⟨List.mem_singleton_self _, rfl⟩
    | some arm =>
      rw [Piece.compile, alternative] at h
      exact .of_parts rfl (compileAll_singleton _ _ ▸ h)
  | stmt s => exact done_stmt h
  | expr e => exact done_expr hne h

/-- The arms of a conditional are compiled apart and joined. -/
theorem conditional_ok {condition : Expr} {thenBranch : Block} {elseBranch : Option Block}
    {span : Span} (h : (expr (.conditional condition thenBranch elseBranch span) code).run st =
      .ok (code₁, st₁)) :
    ∃ c₁ s₁ c₂ s₂ c₃, (expr condition code).run st = .ok (c₁, s₁) ∧
      (block .arm thenBranch (Fragment.startingAt (c₁.stop + Opcode.jumpNotTruthy.width))).run s₁ =
        .ok (c₂, s₂) ∧
      (alternative elseBranch span (Fragment.startingAt (c₂.stop + Opcode.jump.width))).run s₂ =
        .ok (c₃, st₁) ∧
      code₁ = c₁.joinArms span c₂ c₃ := by
  simp only [expr_conditional, bind_ok, limit_ok, pure_ok] at h
  obtain ⟨c₁, s₁, hcondition, c₂, s₂, hthen, _, _, ⟨-, rfl⟩, h⟩ := h
  obtain ⟨c₃, s₃, helse, _, _, ⟨-, rfl⟩, rfl, rfl⟩ := h
  exact ⟨c₁, s₁, c₂, s₂, c₃, hcondition, hthen, helse, rfl⟩

/-! ### States -/

/-- How many values the code of a piece leaves on the stack. -/
def Piece.leaves : Piece → Nat
  | program _ => 0
  | block purpose _ => if purpose = .arm then 1 else 0
  | alternative .. => 1
  | stmt _ => 0
  | expr _ => 1

theorem Piece.emits_leaves (t : Piece) : Emits t.leaves t.compile := by
  cases t with
  | program statements => exact emits_stmts statements
  | block purpose b => exact emits_block purpose b
  | alternative arm span => exact emits_alternative arm span
  | stmt s => exact emits_stmt s
  | expr e => exact emits_expr e

theorem Piece.emits (t : Piece) : ∃ count, Emits count t.compile :=
  ⟨_, t.emits_leaves⟩

theorem emits_compileAll (pieces : List Piece) : ∃ count, Emits count (compileAll pieces) := by
  induction pieces with
  | nil => exact ⟨_, Emits.nothing.of_eq fun _ => by rw [compileAll]⟩
  | cons t rest ih =>
    obtain ⟨count, ht⟩ := t.emits
    obtain ⟨count', hrest⟩ := ih
    exact ⟨_, (ht.seq hrest).of_eq fun _ => by rw [compileAll]⟩

theorem Emits.valid {count : Nat} {part : Fragment → Compile Fragment} (h : Emits count part)
    (hrun : (part code).run st = .ok (code₁, st₁)) (hst : st.Valid) : st₁.Valid := by
  obtain ⟨is, hemitted, -⟩ := h hrun hst
  exact hemitted.valid

theorem Piece.valid {t : Piece} (hrun : (t.compile code).run st = .ok (code₁, st₁))
    (hst : st.Valid) : st₁.Valid := by
  obtain ⟨count, hemits⟩ := t.emits
  exact hemits.valid hrun hst

theorem Piece.valid_prepare {t : Piece} (hrun : t.prepare.run st = .ok ((), st₁))
    (hst : st.Valid) : st₁.Valid := by
  rw [prepare.eq_def] at hrun
  split at hrun
  · obtain ⟨s, hdeclare⟩ := discard_ok.mp hrun
    exact (declareName_prepares hdeclare hst).1
  · obtain ⟨s, htarget⟩ := discard_ok.mp hrun
    exact (resolve_prepares (resolveTarget_ok htarget).1 hst).1
  · obtain ⟨-, rfl⟩ := pure_ok.mp hrun
    exact hst

theorem valid_enterFunction {name? : Option String} {params : List Param}
    (hrun : (enterFunction name? params).run st = .ok ((), st₁)) (hst : st.Valid) : st₁.Valid := by
  obtain ⟨t, ht, rfl⟩ := enterFunction_ok hrun hst.sound
  exact valid_entered hst ht

/-- The property of states is kept by whatever the compiler does with names and constants. -/
structure Kept (Inv : CompilerState → Prop) : Prop where
  resolve : ∀ {name : String} {span : Span} {s : Symbol} {st st₁ : CompilerState}, st.Valid →
    (resolve name span).run st = .ok (s, st₁) → Inv st → Inv st₁
  declareName : ∀ {mutability : Mutability} {name : String} {value : Expr} {span : Span}
    {s : Symbol} {st st₁ : CompilerState}, st.Valid →
    (declareName mutability name value span).run st = .ok (s, st₁) → Inv st → Inv st₁
  addConstant : ∀ {c : Constant} {span : Span} {n : Nat} {st st₁ : CompilerState}, st.Valid →
    (∀ f, c ≠ .function f) → (addConstant c span).run st = .ok (n, st₁) → Inv st → Inv st₁
  enterFunction : ∀ {name? : Option String} {params : List Param} {st st₁ : CompilerState},
    st.Valid → (enterFunction name? params).run st = .ok ((), st₁) → Inv st → Inv st₁
  leave : ∀ {name? : Option String} {params : List Param} {body : Block} {bodyCode : Fragment}
    {entered last : CompilerState}, last.Valid →
    (block .body body ({} : Fragment)).run entered = .ok (bodyCode, last) → Inv last →
    Inv ⟨last.scopes.leave?.getD {}, last.constants.push
      (.function (functionCode name? params bodyCode last.scopes.current))⟩

namespace Kept

variable {Inv : CompilerState → Prop}

theorem prepare (h : Kept Inv) {t : Piece} (hrun : t.prepare.run st = .ok ((), st₁))
    (hvalid : st.Valid) (hst : Inv st) : Inv st₁ := by
  rw [Piece.prepare.eq_def] at hrun
  split at hrun
  · obtain ⟨s, hdeclare⟩ := discard_ok.mp hrun
    exact h.declareName hvalid hdeclare hst
  · obtain ⟨s, htarget⟩ := discard_ok.mp hrun
    exact h.resolve hvalid (resolveTarget_ok htarget).1 hst
  · obtain ⟨-, rfl⟩ := pure_ok.mp hrun
    exact hst

theorem compileAll {pieces : List Piece}
    (hpieces : ∀ t ∈ pieces, ∀ {code code₁ st st₁}, (t.compile code).run st = .ok (code₁, st₁) →
      st.Valid → Inv st → Inv st₁)
    (hrun : (Piece.compileAll pieces code).run st = .ok (code₁, st₁)) (hvalid : st.Valid)
    (hst : Inv st) : Inv st₁ := by
  induction pieces generalizing code st with
  | nil =>
    obtain ⟨-, rfl⟩ := pure_ok.mp hrun
    exact hst
  | cons t rest ih =>
    obtain ⟨code', st', hfirst, hrest⟩ := compileAll_cons_ok.mp hrun
    exact ih (fun t ht => hpieces t (List.mem_cons_of_mem _ ht)) hrest
      (t.valid hfirst hvalid) (hpieces t List.mem_cons_self hfirst hvalid hst)

/-- What is kept by whatever the compiler does with names and constants is kept by every piece. -/
theorem compile (h : Kept Inv) {t : Piece} (hrun : (t.compile code).run st = .ok (code₁, st₁))
    (hvalid : st.Valid) (hst : Inv st) : Inv st₁ := by
  induction t using Piece.induction generalizing code code₁ st st₁ with
  | conditional condition thenBranch elseBranch span ih₁ ih₂ ih₃ =>
    obtain ⟨c₁, s₁, c₂, s₂, c₃, hcondition, hthen, helse, -⟩ := conditional_ok hrun
    have hvalid₁ := (Piece.expr condition).valid hcondition hvalid
    have hvalid₂ := (Piece.block .arm thenBranch).valid hthen hvalid₁
    exact ih₃ helse hvalid₂ (ih₂ hthen hvalid₁ (ih₁ hcondition hvalid hst))
  | other t hne ihparts ihbody =>
    obtain ⟨st₀, code', st', own, hprepare, hparts, hfinishes, -⟩ := done hne hrun
    have hvalid₀ := t.valid_prepare hprepare hvalid
    obtain ⟨count, hemits⟩ := emits_compileAll t.parts
    have hvalid' := hemits.valid hparts hvalid₀
    have hst' := Kept.compileAll (fun part hpart {_ _ _ _} => ihparts part hpart) hparts hvalid₀
      (h.prepare hprepare hvalid hst)
    cases hfinishes with
    | plain | declare | assign => exact hst'
    | constant hc hadd => exact h.addConstant hvalid' hc hadd hst'
    | identifier hresolve => exact h.resolve hvalid' hresolve hst'
    | @function _ _ body _ _ _ entered _ _ henter hbody =>
      have hentered := valid_enterFunction henter hvalid'
      exact h.leave ((Piece.block .body body).valid hbody hentered) hbody
        (ihbody _ _ _ _ rfl hbody hentered (h.enterFunction hvalid' henter hst'))

end Kept

end Compile

end Bytescript
