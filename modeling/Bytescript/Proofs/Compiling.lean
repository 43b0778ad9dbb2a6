/-
How compiling changes names, constants and code.

Main statements: `Compile.adds_expr` and its companions for the other parts of trees. Compiling a
part of a tree declares the names that this part declares, captures only names that it mentions,
adds constants at the end of the pool, and adds instructions at the end of the code.

Design notes: all parts of the compiler take the code before them and give the code after them,
so one predicate, `Compile.Adds`, speaks about all of them. It is kept by the ways in which the
compiler puts parts together (`Adds.seq`, `Adds.conditional`, `adds_function`).

The last statement of a block is compiled like the others, and then the end of the code is changed.
For inductions over blocks, `block_cons` and its companions say what comes of that: each statement
is compiled on its own, the last one in the way in which it gives the value.
-/
import Bytescript.Proofs.CompilerSteps

namespace Bytescript

namespace Compile

variable {α β : Type} {st st₁ st₂ : CompilerState}

/-! ### Growth -/

/-- The state `st₁` is `st` after names were declared, mentioned names captured and constants
added. -/
structure Advances (declared mentioned : List String) (st st₁ : CompilerState) : Prop where
  sound : st₁.scopes.Sound
  scopes : st.scopes.Grows declared (· ∈ mentioned) st₁.scopes
  constants : st.constants.toList <+: st₁.constants.toList

namespace Advances

variable {declared declared' mentioned mentioned' : List String}

protected theorem refl (h : st.scopes.Sound) : Advances [] [] st st :=
  ⟨h, .refl _ _, List.prefix_rfl⟩

protected theorem trans (h : Advances declared mentioned st st₁)
    (h' : Advances declared' mentioned' st₁ st₂) :
    Advances (declared ++ declared') (mentioned ++ mentioned') st st₂ where
  sound := h'.sound
  scopes := (h.scopes.trans h'.scopes).mono (.refl _) fun _ _ => List.mem_append.mpr
  constants := h.constants.trans h'.constants

theorem mono (h : Advances declared mentioned st st₁) (hdeclared : declared.Perm declared')
    (hmentioned : ∀ n, ¬ st.scopes.current.Binds n → n ∈ mentioned → n ∈ mentioned') :
    Advances declared' mentioned' st st₁ where
  sound := h.sound
  scopes := h.scopes.mono hdeclared hmentioned
  constants := h.constants

/-- Names that were known stay known, and declared names become known. -/
theorem binds (h : Advances declared mentioned st st₁) {scope : List String}
    (hscope : ∀ n ∈ scope, st.scopes.current.Binds n) :
    ∀ n ∈ scope ++ declared, st₁.scopes.current.Binds n := by
  intro n hn
  rcases List.mem_append.mp hn with hn | hn
  · exact h.scopes.current.binds (hscope n hn)
  · obtain ⟨s, hs, -⟩ := h.scopes.current.declared n hn
    exact ⟨s, hs⟩

end Advances

/-- What a part of the compiler does: it adds code, declares the names `declared`, and captures
some of the names `mentioned`, which depend on the names known before. -/
def Adds (declared : List String) (mentioned : List String → List String)
    (part : Fragment → Compile Fragment) : Prop :=
  ∀ ⦃code code₁ : Fragment⦄ ⦃st st₁ : CompilerState⦄, (part code).run st = .ok (code₁, st₁) →
    code.Begins code₁ ∧ ∀ ⦃scope : List String⦄, st.scopes.Sound →
      (∀ n ∈ scope, st.scopes.current.Binds n) → Advances declared (mentioned scope) st st₁

namespace Adds

variable {declared declared' : List String} {mentioned mentioned' : List String → List String}
  {part part' : Fragment → Compile Fragment}

theorem begins {code code₁ : Fragment} (h : Adds declared mentioned part)
    (hrun : (part code).run st = .ok (code₁, st₁)) : code.Begins code₁ :=
  (h hrun).1

/-- What a part does, whatever is known before it. -/
theorem advances {code code₁ : Fragment} (h : Adds declared mentioned part)
    (hrun : (part code).run st = .ok (code₁, st₁)) (hsound : st.scopes.Sound) :
    Advances declared (mentioned []) st st₁ ∧ code.Begins code₁ :=
  ⟨(h hrun).2 hsound (by simp), h.begins hrun⟩

theorem of_begins {f : Fragment → Fragment} (h : ∀ code : Fragment, code.Begins (f code)) :
    Adds [] (fun _ => []) fun code => pure (f code) := by
  intro code code₁ st st₁ hrun
  obtain ⟨rfl, rfl⟩ := pure_ok.mp hrun
  exact ⟨h code, fun _ hsound _ => .refl hsound⟩

theorem nothing : Adds [] (fun _ => []) pure :=
  of_begins .refl

theorem emit (op : Opcode) (operands : List Nat) (span : Span) :
    Adds [] (fun _ => []) fun code => pure (code.emit op operands span) :=
  of_begins fun code => .emit code op operands span

/-- Two parts, one after the other. -/
theorem seq (h : Adds declared mentioned part) (h' : Adds declared' mentioned' part') :
    Adds (declared ++ declared') (fun scope => mentioned scope ++ mentioned' (scope ++ declared))
      fun code => part code >>= part' := by
  intro code code₂ st st₂ hrun
  obtain ⟨code₁, st₁, hrun, hrun'⟩ := bind_ok.mp hrun
  refine ⟨(h.begins hrun).trans (h'.begins hrun'), fun scope hsound hscope => ?_⟩
  have hadvances := (h hrun).2 hsound hscope
  exact hadvances.trans ((h' hrun').2 hadvances.sound (hadvances.binds hscope))

/-- A part with an instruction after it. -/
theorem then_emit (h : Adds declared mentioned part) (op : Opcode) (operands : List Nat)
    (span : Span) : Adds declared mentioned fun code => do
      let code ← part code
      return code.emit op operands span := by
  have := h.seq (emit op operands span)
  simp only [List.append_nil] at this
  exact this

/-- A part after a check of a limit. -/
theorem after_limit (h : Adds declared mentioned part) (what : Quota) (count max : Nat)
    (span : Span) : Adds declared mentioned fun code =>
      limit what count max span >>= fun _ => part code := by
  intro code code₁ st st₁ hrun
  obtain ⟨_, _, hlimit, hrun⟩ := bind_ok.mp hrun
  obtain ⟨-, rfl⟩ := limit_ok.mp hlimit
  exact h hrun

theorem mono (h : Adds declared mentioned part) (hdeclared : declared.Perm declared')
    (hmentioned : ∀ scope, ∀ n ∈ mentioned scope, n ∈ mentioned' scope) :
    Adds declared' mentioned' part := by
  intro code code₁ st st₁ hrun
  refine ⟨h.begins hrun, fun scope hsound hscope => ?_⟩
  exact ((h hrun).2 hsound hscope).mono hdeclared fun n _ => hmentioned scope n

theorem of_eq (h : Adds declared mentioned part') (heq : ∀ code, part code = part' code) :
    Adds declared mentioned part := by
  obtain rfl : part = part' := funext heq
  exact h

end Adds

/-! ### Names and constants -/

theorem advances_resolve {name : String} {span : Span} {s : Symbol}
    (h : (resolve name span).run st = .ok (s, st₁)) (hsound : st.scopes.Sound) :
    Advances [] [name] st st₁ := by
  obtain ⟨scopes, hresolve, rfl⟩ := withScopes_ok.mp h
  obtain ⟨hsound', hgrows, -⟩ := Scopes.resolve_spec hsound hresolve
  exact ⟨hsound', hgrows.mono (.refl _) fun _ _ hn => List.mem_singleton.mpr hn, List.prefix_rfl⟩

/-- Names that are known are not captured. -/
theorem advances_resolve_of_scope {name : String} {span : Span} {s : Symbol} {scope : List String}
    (h : (resolve name span).run st = .ok (s, st₁)) (hsound : st.scopes.Sound)
    (hscope : ∀ n ∈ scope, st.scopes.current.Binds n) :
    Advances [] (if name ∈ scope then [] else [name]) st st₁ := by
  refine (advances_resolve h hsound).mono (.refl _) fun n hfree hn => ?_
  obtain rfl := List.mem_singleton.mp hn
  rw [if_neg fun hmem => hfree (hscope n hmem)]
  exact hn

theorem adds_identifier (name : String) (span : Span) :
    Adds [] (fun scope => if name ∈ scope then [] else [name]) (expr (.identifier name span)) := by
  intro code code₁ st st₁ h
  rw [expr] at h
  obtain ⟨s, st', hresolve, h⟩ := bind_ok.mp h
  obtain ⟨rfl, rfl⟩ := pure_ok.mp h
  exact ⟨begins_load s span code, fun _ => advances_resolve_of_scope hresolve⟩

theorem advances_addConstant {constant : Constant} {span : Span} {index : Nat}
    (h : (addConstant constant span).run st = .ok (index, st₁)) (hsound : st.scopes.Sound) :
    Advances [] [] st st₁ := by
  obtain ⟨-, -, rfl⟩ := addConstant_ok.mp h
  exact ⟨hsound, .refl _ _, by simp⟩

theorem adds_constant (constant : Constant) (span : Span) :
    Adds [] (fun _ => []) fun code => do
      let index ← addConstant constant span
      return code.emit .constant [index] span := by
  intro code code₁ st st₁ h
  obtain ⟨index, st', hadd, h⟩ := bind_ok.mp h
  obtain ⟨rfl, rfl⟩ := pure_ok.mp h
  exact ⟨.emit _ _ _ _, fun _ hsound _ => advances_addConstant hadd hsound⟩

/-! ### Conditionals -/

theorem Adds.conditional {condition thenPart elsePart : Fragment → Compile Fragment}
    {declared₁ declared₂ declared₃ : List String}
    {mentioned₁ mentioned₂ mentioned₃ : List String → List String}
    (h₁ : Adds declared₁ mentioned₁ condition) (h₂ : Adds declared₂ mentioned₂ thenPart)
    (h₃ : Adds declared₃ mentioned₃ elsePart) (span : Span) :
    Adds (declared₁ ++ declared₂ ++ declared₃)
      (fun scope => mentioned₁ scope ++ mentioned₂ (scope ++ declared₁) ++
        mentioned₃ (scope ++ declared₁ ++ declared₂))
      fun code => do
        let code ← condition code
        let thenCode ← thenPart (.startingAt (code.stop + Opcode.jumpNotTruthy.width))
        let elseStart := thenCode.stop + Opcode.jump.width
        limit .jumpDistance elseStart maxWide span
        let elseCode ← elsePart (.startingAt elseStart)
        limit .jumpDistance elseCode.stop maxWide span
        return code.joinArms span thenCode elseCode := by
  intro code code₁ st st₁ h
  -- names are threaded through all three parts, but each arm has a fragment of its own
  simp only [bind_ok, limit_ok, pure_ok] at h
  obtain ⟨c₁, s₁, hrun₁, c₂, s₂, hrun₂, _, _, ⟨-, rfl⟩, h⟩ := h
  obtain ⟨c₃, s₃, hrun₃, _, _, ⟨-, rfl⟩, rfl, rfl⟩ := h
  constructor
  · refine (h₁.begins hrun₁).trans ?_
    exact (Fragment.Begins.emit _ _ _ _).trans ((Fragment.Begins.append _ (h₂.begins hrun₂)).trans
      ((Fragment.Begins.emit _ _ _ _).trans (Fragment.Begins.append _ (h₃.begins hrun₃))))
  · intro scope hsound hscope
    have hadv₁ := (h₁ hrun₁).2 hsound hscope
    have hadv₂ := (h₂ hrun₂).2 hadv₁.sound (hadv₁.binds hscope)
    exact (hadv₁.trans hadv₂).trans
      ((h₃ hrun₃).2 hadv₂.sound (hadv₂.binds (hadv₁.binds hscope)))

/-! ### Functions -/

theorem defineParams_ok {name? : Option String} {done params : List Param} {u : Unit}
    (h : (defineParams params).run st = .ok (u, st₁)) (hsound : st.scopes.Sound)
    (houter : st.scopes.outer ≠ []) (ht : st.scopes.current.Entered name? done) :
    ∃ t, ScopeTable.Entered name? (done ++ params) t ∧
      { st with scopes := ⟨t, st.scopes.outer⟩ } = st₁ := by
  induction params generalizing st done with
  | nil =>
    obtain ⟨-, rfl⟩ := pure_ok.mp h
    exact ⟨st.scopes.current, by rwa [List.append_nil], rfl⟩
  | cons param params ih =>
    rw [defineParams, bind_ok] at h
    obtain ⟨_, st', hdefine, h⟩ := h
    obtain ⟨s, hdefine⟩ := discard_ok.mp hdefine
    obtain ⟨scopes, hscopes, rfl⟩ := withScopes_ok.mp hdefine
    obtain ⟨hsound', houter', -, -, s', hname, hstorage, hdeclared⟩ :=
      Scopes.declare_spec hsound hscopes (.inl rfl)
    have hlocal : st.scopes.slotStorage = .localSlot := by
      simp [Scopes.slotStorage, Scopes.isGlobal, houter]
    obtain ⟨t, ht', rfl⟩ := ih h hsound' (houter' ▸ houter)
      (ht.declare hdeclared hname (hstorage.trans hlocal))
    exact ⟨t, by simpa using ht', by rw [houter']⟩

/-- The state in which the body of a function is compiled. -/
theorem enterFunction_ok {name? : Option String} {params : List Param} {u : Unit}
    (h : (enterFunction name? params).run st = .ok (u, st₁)) (hsound : st.scopes.Sound) :
    ∃ t, ScopeTable.Entered name? params t ∧
      { st with scopes := ⟨t, st.scopes.current :: st.scopes.outer⟩ } = st₁ := by
  have hentered : ∃ t, ScopeTable.Entered name? [] t ∧
      (defineParams params).run { st with scopes := ⟨t, st.scopes.current :: st.scopes.outer⟩ } =
        .ok (u, st₁) := by
    rw [enterFunction, bind_ok] at h
    obtain ⟨_, _, henter, h⟩ := h
    obtain rfl := modify_ok.mp henter
    cases name? with
    | none => exact ⟨{}, .unnamed, h⟩
    | some name =>
      obtain ⟨_, _, hself, h⟩ := bind_ok.mp h
      obtain rfl := modify_ok.mp hself
      exact ⟨_, .named name params.length, h⟩
  obtain ⟨t, ht, h⟩ := hentered
  obtain ⟨t', ht', rfl⟩ := defineParams_ok h (ht.linked hsound) (by simp) ht
  exact ⟨t', ht', rfl⟩

/-- The names a function captures are mentioned in its body, and not known around it. -/
theorem adds_function {name? : Option String} {params : List Param} {body : Block} {span : Span}
    {declared : List String} {mentioned : List String → List String}
    (h : Adds declared mentioned (block .body body)) :
    Adds [] (fun scope => (mentioned (name?.toList ++ params.map Param.name)).filter (· ∉ scope))
      (expr (.function name? params body span)) := by
  intro code code₁ st st₁ hrun
  obtain ⟨entered, bodyCode, st', henter, hbody, -, -, -, -, rfl, rfl⟩ := function_run hrun
  refine ⟨(begins_loadAll _ _ _).trans (.emit _ _ _ _), fun scope hsound hscope => ?_⟩
  obtain ⟨t, ht, rfl⟩ := enterFunction_ok henter hsound
  have hadvances := (h hbody).2 (ht.linked hsound) fun n hn => ht.binds hn
  -- the table of the body is left; what remains is what it captured from the tables around
  obtain ⟨hsound', ⟨-, houter, -⟩, hconstants⟩ := hadvances
  generalize st'.scopes = scopes at hsound' houter
  obtain ⟨current, outer⟩ := scopes
  cases houter with
  | @cons _ _ t₁ _ outer₁ hgrows houter =>
    refine ⟨?_, ?_, hconstants.trans (by simp)⟩
    · cases hsound' with
      | inner _ _ _ hnext => exact hnext
    · refine (Scopes.Grows.of_captures (.cons hgrows houter)).mono (.refl _) fun n hfree hn => ?_
      simp only [List.mem_filter, decide_eq_true_eq]
      exact ⟨hn.1, fun hmem => hfree (hscope n hmem)⟩

/-! ### Statements -/

/-- The declaration of a name, before its value is compiled. -/
theorem advances_declare {mutability : Mutability} {name : String} {s : Symbol}
    {scopes scopes' : Scopes} (hsound : st.scopes.Sound)
    (hdefine : st.scopes.define name mutability = .ok (s, scopes))
    (hscopes : scopes' = scopes ∨ ∃ arity, scopes' = scopes.recordArity name arity)
    (hindex : s.index ≤ if s.storage = .globalSlot then maxWide else maxNarrow) :
    Advances [name] [] st { st with scopes := scopes' } := by
  obtain ⟨hsound', houter, hstorage, hslot, s', hname, -, hdeclared⟩ :=
    Scopes.declare_spec hsound hdefine hscopes
  refine ⟨hsound', ⟨hname ▸ hdeclared.grows _, houter ▸ .refl _ _, fun hroot _ => ?_⟩,
    List.prefix_rfl⟩
  -- in the root the index was compared with the limit
  rw [hstorage, Scopes.slotStorage, Scopes.isGlobal, hroot] at hindex
  have : s.index ≤ 65535 := hindex
  rw [hdeclared.definitions, ← hslot, Scopes.globalLimit]
  omega

theorem adds_declare {declared : List String} {mentioned : List String → List String}
    {value : Expr} (h : Adds declared mentioned (expr value)) (mutability : Mutability)
    (name : String) (span : Span) :
    Adds (name :: declared) (fun scope => mentioned (scope ++ [name]))
      (stmt (.declare mutability name value span)) := by
  intro code code₁ st st₁ hrun
  obtain ⟨s, scopes, scopes', code', hdefine, hscopes', hvalue, hindex, rfl⟩ := declare_ok hrun
  refine ⟨(h.begins hvalue).trans (.emit _ _ _ _), fun scope hsound hscope => ?_⟩
  have hname := advances_declare hsound hdefine hscopes' hindex
  exact hname.trans ((h hvalue).2 hname.sound (hname.binds hscope))

theorem adds_assign {declared : List String} {mentioned : List String → List String}
    {value : Expr} (h : Adds declared mentioned (expr value)) (name : String) (span : Span) :
    Adds declared (fun scope => (if name ∈ scope then [] else [name]) ++ mentioned scope)
      (stmt (.assign name value span)) := by
  intro code code₁ st st₁ hrun
  simp only [stmt, liftM_self, bind_ok, pure_ok] at hrun
  obtain ⟨s, st', htarget, code', _, hvalue, rfl, rfl⟩ := hrun
  refine ⟨(h.begins hvalue).trans (begins_assign s span code'), fun scope hsound hscope => ?_⟩
  have hresolve := advances_resolve_of_scope (resolveTarget_ok htarget).1 hsound hscope
  exact hresolve.trans ((h hvalue).2 hresolve.sound
    fun n hn => hresolve.binds hscope n (List.mem_append_left _ hn))

/-! ### Trees -/

theorem adds_binary {left right : Expr} {declared₁ declared₂ : List String}
    {mentioned₁ mentioned₂ : List String → List String}
    (hleft : Adds declared₁ mentioned₁ (expr left))
    (hright : Adds declared₂ mentioned₂ (expr right)) (op : BinaryOp) (span : Span) :
    Adds (declared₁ ++ declared₂)
      (fun scope =>
        mentioned₁ (op.scopes .evaluation declared₁ declared₂ scope).1 ++
          mentioned₂ (op.scopes .evaluation declared₁ declared₂ scope).2)
      (expr (.binary op left right span)) := by
  cases hfirst : op.isRightFirst with
  | true =>
    -- the names are declared in the other order than the tree lists them
    refine ((hright.seq (hleft.then_emit _ [] span)).of_eq
      (expr_binary_of_rightFirst hfirst _ _ _)).mono List.perm_append_comm fun scope n hn => ?_
    simpa [BinaryOp.scopes, hfirst, or_comm] using hn
  | false =>
    refine ((hleft.seq (hright.then_emit _ [] span)).of_eq
      (expr_binary_of_leftFirst hfirst _ _ _)).mono (.refl _) fun scope n hn => ?_
    simpa [BinaryOp.scopes, hfirst] using hn

theorem adds_call {callee : Expr} {args : List Expr} {declared₁ declared₂ : List String}
    {mentioned₁ mentioned₂ : List String → List String}
    (hcallee : Adds declared₁ mentioned₁ (expr callee))
    (hargs : Adds declared₂ mentioned₂ (exprs args)) (span : Span) :
    Adds (declared₁ ++ declared₂)
      (fun scope => mentioned₁ scope ++ mentioned₂ (scope ++ declared₁))
      (expr (.call callee args span)) := by
  intro code code₁ st st₁ hrun
  exact hcallee.seq (hargs.then_emit _ _ _) (call_ok hrun).2

/-- A part with a check of a limit and an instruction after it. -/
theorem Adds.then_limit_emit {declared : List String} {mentioned : List String → List String}
    {part : Fragment → Compile Fragment} (h : Adds declared mentioned part) (what : Quota)
    (count max : Nat) (op : Opcode) (operands : List Nat) (span : Span) :
    Adds declared mentioned fun code => do
      let code ← part code
      limit what count max span
      return code.emit op operands span := by
  have := h.seq ((Adds.emit op operands span).after_limit what count max span)
  simp only [List.append_nil] at this
  exact this

mutual

theorem adds_expr : ∀ e : Expr,
    Adds e.declared (fun scope => e.mentioned .evaluation scope) (expr e)
  | .identifier name span => adds_identifier name span
  | .integer value span => (adds_constant (.integer value) span).of_eq fun _ => by rw [expr]; rfl
  | .float value span => (adds_constant (.float value) span).of_eq fun _ => by rw [expr]; rfl
  | .string value span => (adds_constant (.string value) span).of_eq fun _ => by rw [expr]; rfl
  | .boolean _ span => (Adds.emit _ [] span).of_eq fun _ => by rw [expr]; rfl
  | .null span => (Adds.emit .null [] span).of_eq fun _ => by rw [expr]; rfl
  | .unary _ operand span =>
    ((adds_expr operand).then_emit _ [] span).of_eq fun _ => by rw [expr]; rfl
  | .binary op left right span => adds_binary (adds_expr left) (adds_expr right) op span
  | .conditional condition thenBranch elseBranch span =>
    ((adds_expr condition).conditional (adds_block .arm thenBranch)
      (adds_alternative elseBranch span) span).of_eq (expr_conditional _ _ _ _)
  | .function _ _ body _ => adds_function (adds_block .body body)
  | .call callee args span => adds_call (adds_expr callee) (adds_exprs args) span
  | .array elements span =>
    ((adds_exprs elements).then_limit_emit _ _ _ _ _ span).of_eq fun _ => by rw [expr]; rfl
  | .hash pairs span =>
    ((adds_entries pairs).then_limit_emit _ _ _ _ _ span).of_eq fun _ => by rw [expr]; rfl
  | .index object index span =>
    ((adds_expr object).seq ((adds_expr index).then_emit .index [] span)).of_eq fun _ => by
      rw [expr]; rfl

theorem adds_exprs : ∀ es : List Expr,
    Adds (Expr.allDeclared es) (fun scope => Expr.allMentioned .evaluation scope es) (exprs es)
  | [] => Adds.nothing.of_eq fun _ => by rw [exprs]
  | e :: rest => ((adds_expr e).seq (adds_exprs rest)).of_eq fun _ => by rw [exprs]

theorem adds_entries : ∀ pairs : List (Expr × Expr),
    Adds (Expr.entriesDeclared pairs) (fun scope => Expr.entriesMentioned .evaluation scope pairs)
      (entries pairs)
  | [] => Adds.nothing.of_eq fun _ => by rw [entries]
  | (key, value) :: rest => by
    have h := ((adds_expr key).seq (adds_expr value)).seq (adds_entries rest)
    simp only [← List.append_assoc] at h
    refine h.of_eq fun code => ?_
    rw [entries, bind_assoc]

theorem adds_alternative : ∀ (arm : Option Block) (span : Span),
    Adds (Block.elseDeclared arm) (fun scope => Block.elseMentioned .evaluation scope arm)
      (alternative arm span)
  | none, span => (Adds.emit .null [] span).of_eq fun _ => by rw [alternative]; rfl
  | some arm, _ => (adds_block .arm arm).of_eq fun _ => by rw [alternative]

theorem adds_block : ∀ (purpose : Purpose) (b : Block),
    Adds b.declared (fun scope => b.mentioned .evaluation scope) (block purpose b)
  | purpose, .mk statements span => by
    intro start code₁ st st₁ hrun
    rw [block, bind_ok] at hrun
    obtain ⟨code, st', hrun, h⟩ := hrun
    obtain ⟨rfl, rfl⟩ := pure_ok.mp h
    obtain ⟨hbegins, hadvances⟩ := adds_stmts statements hrun
    exact ⟨begins_finish hbegins purpose span, hadvances⟩

theorem adds_stmts : ∀ statements : List Stmt,
    Adds (Stmt.allDeclared statements) (fun scope => Stmt.allMentioned .evaluation scope statements)
      (stmts statements)
  | [] => Adds.nothing.of_eq fun _ => by rw [stmts]
  | s :: rest => ((adds_stmt s).seq (adds_stmts rest)).of_eq fun _ => by rw [stmts]

theorem adds_stmt : ∀ s : Stmt,
    Adds s.declared (fun scope => s.mentioned .evaluation scope) (stmt s)
  | .expression e span => ((adds_expr e).then_emit .pop [] span).of_eq fun _ => by rw [stmt]; rfl
  | .declare mutability name value span => adds_declare (adds_expr value) mutability name span
  | .assign name value span => adds_assign (adds_expr value) name span
  | .ret none span => (Adds.emit .ret [] span).of_eq fun _ => by rw [stmt]; rfl
  | .ret (some value) span =>
    ((adds_expr value).then_emit .returnValue [] span).of_eq fun _ => by rw [stmt]; rfl

end

/-! ### The value of a block -/

/-- Only what follows a step that succeeds matters. -/
theorem bind_congr_of_ok {x : Compile α} {f g : α → Compile β}
    (h : ∀ a st st₁, x.run st = .ok (a, st₁) → (f a).run st₁ = (g a).run st₁) :
    x >>= f = x >>= g := by
  funext st
  show (x >>= f).run st = (x >>= g).run st
  rw [StateT.run_bind, StateT.run_bind]
  cases hx : x.run st with
  | error e => rfl
  | ok r => exact h r.1 st r.2 hx

section

variable {s : Stmt} {rest : List Stmt} {purpose : Purpose} {code code₁ : Fragment}

/-- A statement ends with an instruction of its own, which tells whether it is an expression or
returns. -/
theorem stmt_ok (h : (stmt s code).run st = .ok (code₁, st₁)) :
    ∃ code' op operands span, code.Begins code' ∧ code₁ = code'.emit op operands span ∧
      (op = .pop ↔ ∃ e span, s = .expression e span) ∧
      (op = .returnValue ∨ op = .ret ↔ ∃ value span, s = .ret value span) := by
  cases s with
  | expression e span =>
    rw [stmt, bind_ok] at h
    obtain ⟨code', _, hvalue, h⟩ := h
    obtain ⟨rfl, rfl⟩ := pure_ok.mp h
    exact ⟨code', .pop, [], span, (adds_expr e).begins hvalue, rfl, by simp, by simp⟩
  | declare mutability name value span =>
    obtain ⟨_, _, _, code', -, -, hvalue, -, rfl⟩ := declare_ok h
    refine ⟨code', _, _, span, (adds_expr value).begins hvalue, rfl, ?_⟩
    split <;> simp
  | assign name value span =>
    simp only [stmt, liftM_self, bind_ok, pure_ok, assign_eq] at h
    obtain ⟨_, _, -, code', _, hvalue, rfl, rfl⟩ := h
    refine ⟨code', _, _, span, (adds_expr value).begins hvalue, rfl, ?_⟩
    split <;> simp
  | ret value span =>
    cases value with
    | none =>
      rw [stmt] at h
      obtain ⟨rfl, rfl⟩ := pure_ok.mp h
      exact ⟨code, .ret, [], span, .refl code, rfl, by simp, by simp⟩
    | some value =>
      rw [stmt, bind_ok] at h
      obtain ⟨code', _, hvalue, h⟩ := h
      obtain ⟨rfl, rfl⟩ := pure_ok.mp h
      exact ⟨code', .returnValue, [], span, (adds_expr value).begins hvalue, rfl, by simp, by simp⟩

theorem stmts_ok (h : (stmts (s :: rest) code).run st = .ok (code₁, st₁)) :
    ∃ code' op operands span, code.Begins code' ∧ code₁ = code'.emit op operands span := by
  induction rest generalizing s code st with
  | nil =>
    simp only [stmts, bind_pure] at h
    obtain ⟨code', op, operands, span, hbegins, rfl, -⟩ := stmt_ok h
    exact ⟨code', op, operands, span, hbegins, rfl⟩
  | cons s' rest ih =>
    rw [stmts, bind_ok] at h
    obtain ⟨code₂, _, hfirst, h⟩ := h
    obtain ⟨code', op, operands, span, hbegins, rfl⟩ := ih h
    exact ⟨code', op, operands, span, ((adds_stmt s).begins hfirst).trans hbegins, rfl⟩

theorem block_nil (purpose : Purpose) (span : Span) (code : Fragment) :
    block purpose (.mk [] span) code =
      pure (code.emit (if purpose = .arm then .null else .ret) [] span) := by
  rw [block, stmts, pure_bind, finish_self]

/-- The value of an expression is left on the stack: its pop is taken back. -/
theorem block_arm_expression (e : Expr) (span span' : Span) (code : Fragment) :
    block .arm (.mk [.expression e span'] span) code = expr e code := by
  simp only [block, stmts, stmt, bind_pure, bind_assoc]
  refine (bind_congr_of_ok (g := pure) fun code' _ _ hrun => ?_).trans (bind_pure _)
  rw [pure_bind, emit_fragment, finish_arm_emit ((adds_expr e).begins hrun), if_pos rfl]

/-- The value of an expression is returned in place of its pop. -/
theorem block_body_expression (e : Expr) (span span' : Span) (code : Fragment) :
    block .body (.mk [.expression e span'] span) code = (do
      let code ← expr e code
      return code.emit .returnValue [] span') := by
  simp only [block, stmts, stmt, bind_pure, bind_assoc]
  refine bind_congr_of_ok fun code' _ _ hrun => ?_
  rw [pure_bind, emit_fragment, finish_body_emit ((adds_expr e).begins hrun), if_pos rfl]

theorem block_body_ret (value : Option Expr) (span span' : Span) (code : Fragment) :
    block .body (.mk [.ret value span'] span) code = stmt (.ret value span') code := by
  simp only [block, stmts, bind_pure]
  refine (bind_congr_of_ok (g := pure) fun code' _ _ hrun => ?_).trans (bind_pure _)
  obtain ⟨code', op, operands, _, hbegins, rfl, hpop, hret⟩ := stmt_ok hrun
  rw [finish_body_emit hbegins, if_neg (by simp [hpop]), if_pos (by simp [hret])]

/-- Statements that do not give the value of a block are compiled one after another. -/
theorem block_cons (h : rest = [] → (∀ e span, s ≠ .expression e span) ∧
      (purpose = .body → ∀ value span, s ≠ .ret value span)) (span : Span) (code : Fragment) :
    block purpose (.mk (s :: rest) span) code = (do
      let code ← stmt s code
      block purpose (.mk rest span) code : Compile Fragment) := by
  simp only [block, stmts, bind_assoc]
  refine bind_congr_of_ok fun code₁ _ st₁ hrun => ?_
  cases rest with
  | nil =>
    -- nothing is found to be taken back, neither behind the statement nor without it
    obtain ⟨code', op, operands, span', hbegins, rfl, hpop, hret⟩ := stmt_ok hrun
    have hnoPop : op ≠ .pop := by simp [hpop, h]
    rw [stmts, pure_bind, pure_bind, finish_self]
    cases purpose with
    | arm => rw [finish_arm_emit hbegins, if_neg hnoPop, if_pos rfl]
    | body => rw [finish_body_emit hbegins, if_neg hnoPop, if_neg (by simp [hret, h])]; rfl
  | cons s' rest =>
    refine congrArg (StateT.run · st₁) (bind_congr_of_ok fun _ _ _ hrest => ?_)
    obtain ⟨code', op, operands, span', hbegins, rfl⟩ := stmts_ok hrest
    have hbegins' := ((adds_stmt s).begins hrun).trans hbegins
    cases purpose with
    | arm => rw [finish_arm_emit hbegins, finish_arm_emit hbegins']
    | body => rw [finish_body_emit hbegins, finish_body_emit hbegins']

end

/-- How the statements of a program are compiled. -/
theorem compileFrom_ok {ast : Ast} {p : Program} (h : compileFrom st ast = .ok (p, st₁))
    (hsound : st.scopes.Sound) (houter : st.scopes.outer = []) :
    ∃ code : Fragment, (stmts ast.statements ({} : Fragment)).run st = .ok (code, st₁) ∧
      Advances (Stmt.allDeclared ast.statements)
        (Stmt.allMentioned .evaluation [] ast.statements) st st₁ ∧
      Fragment.Begins {} code ∧ st₁.scopes.outer = [] ∧ p = ⟨code.assemble, st₁.constants⟩ := by
  rw [compileFrom] at h
  cases hrun : (stmts ast.statements (CodeBuilder.empty : Fragment)).run st with
  | error e =>
    rw [compileInto_of_error hrun] at h
    cases h
  | ok r =>
    obtain ⟨code, st'⟩ := r
    rw [compileInto_of_ok hrun] at h
    cases h
    obtain ⟨hadvances, hbegins⟩ := (adds_stmts ast.statements).advances hrun hsound
    have houter' : st'.scopes.outer = [] := (houter ▸ hadvances.scopes.outer).eq_nil
    -- the chain consists of the root alone already
    have hroot : { st' with scopes := st'.scopes.toRoot } = st' := by
      obtain ⟨⟨current, outer⟩, constants⟩ := st'
      cases houter'
      rfl
    exact ⟨code, by rw [hroot]; exact hrun, by rwa [hroot], hbegins, rfl, rfl⟩

end Compile

end Bytescript
