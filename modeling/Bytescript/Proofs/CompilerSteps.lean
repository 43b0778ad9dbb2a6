/-
What the steps of the compiler do when they succeed.

Main statements:

* `Compile.function_run`, `Compile.declare_ok`, `Compile.call_ok` and `Compile.expr_conditional` —
  the steps by which the larger parts of trees are compiled into fragments;
* `Compile.finish_arm_emit` and `Compile.finish_body_emit` — what becomes of a block, by its last
  instruction; nothing that was there before the block is taken back (`Compile.begins_finish`).
-/
import Bytescript.Compile
import Bytescript.Proofs.Layout
import Bytescript.Proofs.Names

namespace Bytescript

theorem eq_ok_of_toOption {ε α : Type} {x : Except ε α} {a : α} (h : x.toOption = some a) :
    x = .ok a := by
  cases x with
  | error e => cases h
  | ok b => exact congrArg Except.ok (Option.some.inj h)

namespace Compile

variable {α β : Type} {st st₁ st₂ : CompilerState}

/-! ### Steps that succeed -/

/-- The steps on names and constants are steps of this monad already. -/
@[simp]
theorem liftM_self (x : Compile α) : (liftM x : Compile α) = x := rfl

@[simp]
theorem emit_fragment (code : Fragment) (op : Opcode) (operands : List Nat) (span : Span) :
    emit code op operands span = code.emit op operands span := rfl

theorem bind_ok {x : Compile α} {f : α → Compile β} {b : β} :
    (x >>= f).run st = .ok (b, st₂) ↔
      ∃ a st₁, x.run st = .ok (a, st₁) ∧ (f a).run st₁ = .ok (b, st₂) := by
  rw [StateT.run_bind]
  cases x.run st with
  | error e =>
    constructor
    · intro h
      cases h
    · rintro ⟨_, _, h, -⟩
      cases h
  | ok r =>
    constructor
    · intro h
      exact ⟨r.1, r.2, rfl, h⟩
    · rintro ⟨a, st₁, h, hf⟩
      cases h
      exact hf

theorem pure_ok {a b : α} : (pure a : Compile α).run st = .ok (b, st₁) ↔ a = b ∧ st = st₁ := by
  show Except.ok (a, st) = Except.ok (b, st₁) ↔ _
  simp

theorem discard_ok {x : Compile α} {u : PUnit} :
    (discard x).run st = .ok (u, st₁) ↔ ∃ a, x.run st = .ok (a, st₁) := by
  show (x >>= fun _ => pure ⟨⟩ : Compile PUnit).run st = .ok (u, st₁) ↔ _
  simp only [bind_ok, pure_ok, true_and, exists_eq_right]

theorem fail_ok {error : CompileError} {span : Span} {a : α} :
    ¬ (fail error span : Compile α).run st = .ok (a, st₁) := by
  intro h
  cases h

theorem limit_ok {what : Quota} {count max : Nat} {span : Span} {u : Unit} :
    (limit what count max span).run st = .ok (u, st₁) ↔ count ≤ max ∧ st = st₁ := by
  show (if max < count then fail (.tooMany what max) span else pure () : Compile Unit).run st =
    _ ↔ _
  split
  · next h =>
    refine ⟨fun h' => absurd h' fail_ok, fun h' => ?_⟩
    omega
  · next h =>
    rw [pure_ok]
    simp
    omega

theorem get_ok {a : CompilerState} :
    (get : Compile _).run st = .ok (a, st₁) ↔ st = a ∧ st = st₁ := by
  show Except.ok (st, st) = Except.ok (a, st₁) ↔ _
  simp

theorem set_ok {a : CompilerState} {u : PUnit} :
    (set a : Compile _).run st = .ok (u, st₁) ↔ a = st₁ := by
  show Except.ok (PUnit.unit, a) = Except.ok (u, st₁) ↔ _
  simp

theorem withScopes_ok {operation : Scopes → Except ScopeError (α × Scopes)} {span : Span} {a : α} :
    (withScopes operation span).run st = .ok (a, st₁) ↔
      ∃ scopes, operation st.scopes = .ok (a, scopes) ∧ { st with scopes } = st₁ := by
  rw [withScopes, bind_ok]
  constructor
  · rintro ⟨_, _, hget, h⟩
    obtain ⟨rfl, rfl⟩ := get_ok.mp hget
    cases hoperation : operation st.scopes with
    | error e =>
      rw [hoperation] at h
      exact absurd h fail_ok
    | ok r =>
      rw [hoperation] at h
      obtain ⟨_, _, hset, h⟩ := bind_ok.mp h
      obtain rfl := set_ok.mp hset
      obtain ⟨rfl, rfl⟩ := pure_ok.mp h
      exact ⟨r.2, rfl, rfl⟩
  · rintro ⟨scopes, hoperation, rfl⟩
    refine ⟨st, st, get_ok.mpr ⟨rfl, rfl⟩, ?_⟩
    rw [hoperation]
    exact bind_ok.mpr ⟨⟨⟩, _, set_ok.mpr rfl, pure_ok.mpr ⟨rfl, rfl⟩⟩

theorem modify_ok {f : CompilerState → CompilerState} {u : PUnit} :
    (modify f : Compile _).run st = .ok (u, st₁) ↔ f st = st₁ := by
  show Except.ok (PUnit.unit, f st) = Except.ok (u, st₁) ↔ _
  simp

theorem keep_ok {body : Fragment} {u : Unit} :
    (keep body : Compile Unit).run st = .ok (u, st₁) ↔ st = st₁ := by
  show Except.ok ((), st) = Except.ok (u, st₁) ↔ _
  simp

theorem addConstant_ok {constant : Constant} {span : Span} {index : Nat} :
    (addConstant constant span).run st = .ok (index, st₁) ↔
      st.constants.size ≤ maxWide ∧ st.constants.size = index ∧
        { st with constants := st.constants.push constant } = st₁ := by
  simp only [addConstant, liftM_self, poolSize, pushConstant, bind_ok, get_ok, limit_ok, modify_ok,
    pure_ok]
  constructor
  · rintro ⟨_, _, ⟨_, _, ⟨rfl, rfl⟩, rfl, rfl⟩, _, _, ⟨hlimit, rfl⟩, _, _, rfl, rfl, rfl⟩
    exact ⟨hlimit, rfl, rfl⟩
  · rintro ⟨hlimit, rfl, rfl⟩
    exact ⟨_, _, ⟨_, _, ⟨rfl, rfl⟩, rfl, rfl⟩, ⟨⟩, _, ⟨hlimit, rfl⟩, ⟨⟩, _, rfl, rfl, rfl⟩

/-- The check of the number of arguments leaves what was found alone. -/
theorem resolve_of_resolveCallee {name : String} {argc : Nat} {nameSpan callSpan : Span}
    {s : Symbol} (h : (resolveCallee name argc nameSpan callSpan).run st = .ok (s, st₁)) :
    (resolve name nameSpan).run st = .ok (s, st₁) := by
  simp only [resolveCallee, bind_ok] at h
  obtain ⟨s', st', hresolve, h⟩ := h
  split at h
  · split at h
    · exact absurd h fail_ok
    · obtain ⟨rfl, rfl⟩ := pure_ok.mp h
      exact hresolve
  · obtain ⟨rfl, rfl⟩ := pure_ok.mp h
    exact hresolve

/-- What is assigned is a global or a local that may be assigned. -/
theorem resolveTarget_ok {name : String} {span : Span} {s : Symbol}
    (h : (resolveTarget name span).run st = .ok (s, st₁)) :
    (resolve name span).run st = .ok (s, st₁) ∧ s.IsSlot ∧ s.mutability ≠ .constant := by
  simp only [resolveTarget, bind_ok] at h
  obtain ⟨s', st', hresolve, h⟩ := h
  split at h
  · exact absurd h fail_ok
  · next hkind =>
    split at h
    · exact absurd h fail_ok
    · next hcaptured =>
      obtain ⟨rfl, rfl⟩ := pure_ok.mp h
      refine ⟨hresolve, ?_, fun hconstant => hkind (.inl hconstant)⟩
      rw [Symbol.IsSlot]
      cases hs : s'.storage <;> simp_all

/-! ### Parts of trees -/

theorem begins_load (s : Symbol) (span : Span) (code : Fragment) :
    code.Begins (load s span code) := by
  rw [load]
  split <;> exact .emit _ _ _ _

theorem assign_eq (s : Symbol) (span : Span) (code : Fragment) :
    assign s span code = code.emit
      (if s.storage = .globalSlot then .assignGlobal else .assignLocal) [s.index] span := by
  rw [assign]
  split <;> rfl

theorem begins_assign (s : Symbol) (span : Span) (code : Fragment) :
    code.Begins (assign s span code) := by
  rw [assign_eq]
  exact .emit _ _ _ _

/-- The code of a function, from that of its body and its table of names. -/
def functionCode (name? : Option String) (params : List Param) (body : Fragment)
    (table : ScopeTable) : FunctionCode :=
  ⟨body.assemble, table.definitions, params.length, name?⟩

/-- Adds the instructions that push captured values. -/
def loadAll (symbols : List Symbol) (span : Span) (code : Fragment) : Fragment :=
  symbols.foldl (fun code symbol => load symbol span code) code

theorem begins_loadAll (symbols : List Symbol) (span : Span) (code : Fragment) :
    code.Begins (loadAll symbols span code) := by
  induction symbols generalizing code with
  | nil => exact .refl code
  | cons s rest ih => exact (begins_load s span code).trans (ih _)

/-- The steps by which a function is compiled. -/
theorem function_run {name? : Option String} {params : List Param} {body : Block} {span : Span}
    {code code₁ : Fragment} (h : (expr (.function name? params body span) code).run st =
      .ok (code₁, st₁)) :
    ∃ entered bodyCode st', (enterFunction name? params).run st = .ok ((), entered) ∧
      (block .body body ({} : Fragment)).run entered = .ok (bodyCode, st') ∧
      params.length ≤ maxNarrow ∧ st'.scopes.current.definitions ≤ maxNarrow + 1 ∧
      st'.scopes.current.captures.toList.length ≤ maxNarrow ∧ st'.constants.size ≤ maxWide ∧
      st₁ = ⟨st'.scopes.leave?.getD {}, st'.constants.push
        (.function (functionCode name? params bodyCode st'.scopes.current))⟩ ∧
      code₁ = (loadAll st'.scopes.current.captures.toList span code).emit .closure
        [st'.constants.size, st'.scopes.current.captures.toList.length] span := by
  simp only [expr, liftM_self, leaveFunction, makeClosure, bind_ok, limit_ok, get_ok, set_ok,
    pure_ok, addConstant_ok, keep_ok] at h
  obtain ⟨_, _, ⟨hparams, rfl⟩, _, s₁, henter, bodyCode, s₂, hbody, _, _,
    ⟨_, _, ⟨rfl, rfl⟩, _, _, rfl, rfl, rfl⟩, _, _, ⟨hlocals, rfl⟩, _, _, ⟨hcaptures, rfl⟩, _, _,
    ⟨hsize, rfl, rfl⟩, _, _, rfl, rfl, rfl⟩ := h
  exact ⟨s₁, bodyCode, s₂, henter, hbody, hparams, hlocals, hcaptures, hsize, rfl, rfl⟩

theorem storeNew_ok {s : Symbol} {span : Span} {code code₁ : Fragment}
    (h : (storeNew s span code).run st = .ok (code₁, st₁)) :
    st = st₁ ∧ s.index ≤ (if s.storage = .globalSlot then maxWide else maxNarrow) ∧
      code₁ = code.emit (if s.storage = .globalSlot then .setGlobal else .setLocal) [s.index]
        span := by
  rw [storeNew] at h
  split at h <;>
  · next hs =>
    simp only [bind_ok, limit_ok, pure_ok] at h
    obtain ⟨_, _, ⟨hlimit, rfl⟩, rfl, rfl⟩ := h
    simp [hs, hlimit]

/-- How a declaration is compiled: the name first, so that its value may mention it. -/
theorem declare_ok {mutability : Mutability} {name : String} {value : Expr} {span : Span}
    {code code₁ : Fragment} (h : (stmt (.declare mutability name value span) code).run st =
      .ok (code₁, st₁)) :
    ∃ s scopes scopes' code', st.scopes.define name mutability = .ok (s, scopes) ∧
      (scopes' = scopes ∨ ∃ arity, scopes' = scopes.recordArity name arity) ∧
      (expr value code).run { st with scopes := scopes' } = .ok (code', st₁) ∧
      s.index ≤ (if s.storage = .globalSlot then maxWide else maxNarrow) ∧
      code₁ = code'.emit (if s.storage = .globalSlot then .setGlobal else .setLocal) [s.index]
        span := by
  rw [stmt, bind_ok] at h
  obtain ⟨s, _, hname, h⟩ := h
  rw [liftM_self, declareName, bind_ok] at hname
  obtain ⟨s', _, hdefine, hname⟩ := hname
  obtain ⟨scopes, hscopes, rfl⟩ := withScopes_ok.mp hdefine
  -- a constant that is given a function has its number of parameters recorded before
  have hrest : s' = s ∧ ∃ scopes',
      (scopes' = scopes ∨ ∃ arity, scopes' = scopes.recordArity name arity) ∧
      (expr value code >>= storeNew s span).run { st with scopes := scopes' } =
        .ok (code₁, st₁) := by
    split at hname
    · obtain ⟨_, _, harity, hname⟩ := bind_ok.mp hname
      obtain rfl := modify_ok.mp harity
      obtain ⟨rfl, rfl⟩ := pure_ok.mp hname
      exact ⟨rfl, _, .inr ⟨_, rfl⟩, h⟩
    · obtain ⟨rfl, rfl⟩ := pure_ok.mp hname
      exact ⟨rfl, _, .inl rfl, h⟩
  obtain ⟨rfl, scopes', hscopes', h⟩ := hrest
  obtain ⟨code', st', hvalue, h⟩ := bind_ok.mp h
  obtain ⟨rfl, hindex, rfl⟩ := storeNew_ok h
  exact ⟨s', scopes, scopes', code', hscopes, hscopes', hvalue, hindex, rfl⟩

theorem expr_binary_of_rightFirst {op : BinaryOp} (h : op.isRightFirst = true)
    (left right : Expr) (span : Span) (code : Fragment) :
    expr (.binary op left right span) code = do
      let code ← expr right code
      let code ← expr left code
      return code.emit (binaryOpcode op).1 [] span := by
  rw [expr]
  cases op with
  | less | lessEqual => rfl
  | add | sub | mul | div | mod | equal | notEqual | greater | greaterEqual => cases h

theorem expr_binary_of_leftFirst {op : BinaryOp} (h : op.isRightFirst = false)
    (left right : Expr) (span : Span) (code : Fragment) :
    expr (.binary op left right span) code = do
      let code ← expr left code
      let code ← expr right code
      return code.emit (binaryOpcode op).1 [] span := by
  rw [expr]
  cases op with
  | less | lessEqual => cases h
  | add | sub | mul | div | mod | equal | notEqual | greater | greaterEqual => rfl

/-- The callee of a call is compiled like any expression; a name is also compared with the number
of arguments. -/
theorem call_ok {callee : Expr} {args : List Expr} {span : Span} {code code₁ : Fragment}
    (h : (expr (.call callee args span) code).run st = .ok (code₁, st₁)) :
    args.length ≤ maxNarrow ∧ (do
      let code ← expr callee code
      let code ← exprs args code
      return code.emit .call [args.length] span : Compile Fragment).run st = .ok (code₁, st₁) := by
  rw [expr, bind_ok] at h
  obtain ⟨_, _, hlimit, h⟩ := h
  obtain ⟨hargs, rfl⟩ := limit_ok.mp hlimit
  refine ⟨hargs, ?_⟩
  split at h
  · rw [bind_ok] at h ⊢
    obtain ⟨s, st', hresolve, h⟩ := h
    refine ⟨_, st', ?_, h⟩
    rw [expr, bind_ok]
    exact ⟨s, st', resolve_of_resolveCallee hresolve, rfl⟩
  · exact h

/-- The arms of a conditional are fragments of their own. -/
theorem expr_conditional (condition : Expr) (thenBranch : Block) (elseBranch : Option Block)
    (span : Span) (code : Fragment) :
    expr (.conditional condition thenBranch elseBranch span) code = (do
      let code ← expr condition code
      let thenCode ← block .arm thenBranch (.startingAt (code.stop + Opcode.jumpNotTruthy.width))
      let elseStart := thenCode.stop + Opcode.jump.width
      limit .jumpDistance elseStart maxWide span
      let elseCode ← alternative elseBranch span (.startingAt elseStart)
      limit .jumpDistance elseCode.stop maxWide span
      return code.joinArms span thenCode elseCode : Compile Fragment) := by
  rw [expr]
  rfl

/-! ### The end of a block -/

section Finish

variable {start code : Fragment}

theorem finish_self (purpose : Purpose) (span : Span) (code : Fragment) :
    finish purpose span code code = code.emit (if purpose = .arm then .null else .ret) [] span := by
  cases purpose with
  | arm =>
    show (if Fragment.endsIn code code .pop then code.removeLast else code.emit .null [] span) = _
    rw [Fragment.endsIn_self]
    rfl
  | body =>
    show (let code' :=
        if Fragment.endsIn code code .pop then code.replaceLast .returnValue else code
      if Fragment.endsIn code code' .returnValue || Fragment.endsIn code code' .ret then code'
      else code'.emit .ret [] span) = _
    simp [Fragment.endsIn_self]

theorem finish_arm_emit (h : start.Begins code) (op : Opcode) (operands : List Nat)
    (span span' : Span) :
    finish .arm span start (code.emit op operands span') =
      if op = .pop then code else (code.emit op operands span').emit .null [] span := by
  show (if Fragment.endsIn start (code.emit op operands span') .pop then
      (code.emit op operands span').removeLast
    else (code.emit op operands span').emit .null [] span) = _
  rw [Fragment.endsIn_emit h, Fragment.removeLast_emit]
  simp

theorem finish_body_emit (h : start.Begins code) (op : Opcode) (operands : List Nat)
    (span span' : Span) :
    finish .body span start (code.emit op operands span') =
      if op = .pop then code.emit .returnValue [] span'
      else if op = .returnValue ∨ op = .ret then code.emit op operands span'
      else (code.emit op operands span').emit .ret [] span := by
  show (let code' := if Fragment.endsIn start (code.emit op operands span') .pop then
        (code.emit op operands span').replaceLast .returnValue
      else code.emit op operands span'
    if Fragment.endsIn start code' .returnValue || Fragment.endsIn start code' .ret then code'
    else code'.emit .ret [] span) = _
  rw [Fragment.endsIn_emit h, Fragment.replaceLast_emit]
  by_cases hpop : op = .pop
  · simp [hpop, Fragment.endsIn_emit h]
  · simp [hpop, Fragment.endsIn_emit h]

/-- Finishing a block takes nothing back that was there before it. -/
theorem begins_finish (h : start.Begins code) (purpose : Purpose) (span : Span) :
    start.Begins (finish purpose span start code) := by
  obtain rfl | ⟨code', op, operands, span', hbegins, rfl⟩ := h.eq_or_emit
  · rw [finish_self]
    exact .emit _ _ _ _
  · cases purpose with
    | arm =>
      rw [finish_arm_emit hbegins]
      split
      · exact hbegins
      · exact h.trans (.emit _ _ _ _)
    | body =>
      rw [finish_body_emit hbegins]
      split
      · exact hbegins.trans (.emit _ _ _ _)
      · split
        · exact h
        · exact h.trans (.emit _ _ _ _)

end Finish

end Compile

/-! ### Programs -/

section

variable {C : Type} [CodeBuilder C] {st st₁ : CompilerState} {ast : Ast}

theorem compileInto_of_ok {code : C}
    (h : (Compile.stmts ast.statements (CodeBuilder.empty : C)).run st = .ok (code, st₁)) :
    compileInto C st ast = .ok (⟨CodeBuilder.assemble code, st₁.constants⟩,
      { st₁ with scopes := st₁.scopes.toRoot }) := by
  rw [compileInto, h]

theorem compileInto_of_error {e : Located CompileError}
    (h : (Compile.stmts ast.statements (CodeBuilder.empty : C)).run st = .error e) :
    compileInto C st ast = .error e := by
  rw [compileInto, h]

end

end Bytescript
