/-
Operands are written in full.

An operand that is too large for its bytes would lose the high ones when it is written, so the
compiler compares numbers with limits. `Drafting` is a monad in which it runs without these
comparisons. It keeps the instructions of every function as well, so that nothing is lost in their
bytes: they show what a tree needs, whether it can be written or not.

* `Compile.drafts_expr` and its companions — the compiler does what it would do without limits, as
  long as it does not refuse something for being too many;
* `faithful_of_compileFrom` — what it does not refuse can be written, and is read again as it was
  meant.

Main statement: `operands_written`, for programs that are compiled at the start or after others.

Design notes: functions are checked against limits when they are complete, and the globals that they
use when the program is. So operands of globals are seen to fit at the end only.
-/
import Bytescript.Proofs.Incremental

namespace Bytescript

variable {α β : Type}

/-! ### The compiler without limits -/

/-- What a compiler without limits has found so far. -/
structure Draft where
  state : CompilerState
  /-- The code of the functions that were added to the pool. -/
  bodies : List Fragment := []

/-- Steps of a compiler without limits. -/
abbrev Drafting := StateT Draft (Except (Located CompileError))

/-- A step of the compiler that looks at no limit. -/
instance : MonadLiftT Compile Drafting where
  monadLift x := fun d => do
    let (a, state) ← x.run d.state
    return (a, { d with state })

/-- No number is refused. -/
instance : LimitChecker Drafting where
  limit _ _ _ _ := pure ()

instance : BodyKeeper Drafting Fragment where
  keep body := modify fun d => { d with bodies := d.bodies ++ [body] }

/-- The code that a tree needs, whether it can be written or not: that of the program, and of the
functions that it adds to the pool. -/
structure Drafted where
  main : Fragment
  bodies : List Fragment

/-- Compiles a tree without looking at limits. -/
def draftFrom (st : CompilerState) (ast : Ast) : Except (Located CompileError) Drafted := do
  let statements : Drafting Fragment := Compile.stmts ast.statements CodeBuilder.empty
  let (main, d) ← statements.run ⟨st, []⟩
  return ⟨main, d.bodies⟩

/-! ### Following the compiler -/

/-- How the compiler ends compared with the one without limits: it refuses something for being too
many, or both fail in the same way, or they give the same and what they leave satisfies `Q`. -/
inductive Matches (Q : α → Draft → Prop) : Except (Located CompileError) (α × CompilerState) →
    Except (Located CompileError) (α × Draft) → Prop where
  | refused {what : Quota} {max : Nat} {span : Span}
      {r : Except (Located CompileError) (α × Draft)} :
      Matches Q (.error ⟨.tooMany what max, span⟩) r
  | failed {e : Located CompileError} : Matches Q (.error e) (.error e)
  | done {a : α} {d : Draft} : Q a d → Matches Q (.ok (a, d.state)) (.ok (a, d))

/-- From the draft `d`, the step `x` of the compiler follows `y`. -/
def Draft.Follows (d : Draft) (x : Compile α) (y : Drafting α) (Q : α → Draft → Prop) : Prop :=
  Matches Q (x.run d.state) (y.run d)

namespace Draft.Follows

open Compile

variable {d : Draft} {x : Compile α} {y : Drafting α} {Q : α → Draft → Prop}

protected theorem bind {f : α → Compile β} {g : α → Drafting β} {Q' : β → Draft → Prop}
    (h : d.Follows x y Q) (hf : ∀ a d₁, Q a d₁ → d₁.Follows (f a) (g a) Q') :
    d.Follows (x >>= f) (y >>= g) Q' := by
  rw [Draft.Follows] at h ⊢
  rw [StateT.run_bind, StateT.run_bind]
  generalize x.run d.state = r at h
  generalize y.run d = r' at h
  cases h with
  | refused => exact .refused
  | failed => exact .failed
  | done hQ => exact hf _ _ hQ

protected theorem pure {a : α} (h : Q a d) : d.Follows (pure a) (pure a) Q :=
  .done h

/-- Where a number is compared with a limit, the other compiler just goes on. -/
theorem limit (what : Quota) (count max : Nat) (span : Span) (d : Draft) :
    d.Follows (limit what count max span) (limit what count max span)
      fun _ d₁ => count ≤ max ∧ d₁ = d := by
  show d.Follows (if max < count then fail (.tooMany what max) span else pure ()) (pure ()) _
  split
  · exact .refused
  · next hle => exact .done ⟨Nat.not_lt.mp hle, rfl⟩

/-- A step that looks at no limit is the same in both. -/
theorem lift (x : Compile α) (d : Draft) : d.Follows x (liftM x) fun a d₁ =>
    x.run d.state = .ok (a, d₁.state) ∧ d₁.bodies = d.bodies := by
  rw [Draft.Follows]
  cases hrun : x.run d.state with
  | error e =>
    have hlift : (liftM x : Drafting α).run d = .error e := by
      show (x.run d.state >>= _) = _
      rw [hrun]
      rfl
    rw [hlift]
    exact .failed
  | ok r =>
    have hlift : (liftM x : Drafting α).run d = .ok (r.1, { d with state := r.2 }) := by
      show (x.run d.state >>= _) = _
      rw [hrun]
      rfl
    rw [hlift]
    exact .done (d := { d with state := r.2 }) ⟨rfl, rfl⟩

theorem mono {Q' : α → Draft → Prop} (h : d.Follows x y Q) (hQ : ∀ a d₁, Q a d₁ → Q' a d₁) :
    d.Follows x y Q' := by
  rw [Draft.Follows] at h ⊢
  generalize x.run d.state = r at h ⊢
  generalize y.run d = r' at h ⊢
  cases h with
  | refused => exact .refused
  | failed => exact .failed
  | done h => exact .done (hQ _ _ h)

/-- What is left by two steps is also what the compiler leaves. -/
theorem run (h : d.Follows x y Q) :
    d.Follows x y fun a d₁ => Q a d₁ ∧ x.run d.state = .ok (a, d₁.state) := by
  rw [Draft.Follows] at h ⊢
  generalize x.run d.state = r at h ⊢
  generalize y.run d = r' at h ⊢
  cases h with
  | refused => exact .refused
  | failed => exact .failed
  | done h => exact .done ⟨h, rfl⟩

end Draft.Follows

/-! ### Bodies of functions -/

theorem Compile.Placed.instructions {is : List (Located Instruction)} {code : Fragment}
    (h : Compile.Placed is {} code) : code.instructions.toList = is := by
  rw [h.extended.instructions]
  show [] ++ moved 0 is = is
  rw [List.nil_append, moved_zero]

/-- The code of the functions of a pool. -/
def functionCodes (pool : List Constant) : List Code :=
  pool.filterMap fun
    | .function f => some f.code
    | _ => none

theorem functionCodes_append (pool pool' : List Constant) :
    functionCodes (pool ++ pool') = functionCodes pool ++ functionCodes pool' :=
  List.filterMap_append

/-- The fragment is the complete body of a function, with numbers that are small enough to be
written, except that nothing is said about how many globals there are. -/
def Fragment.IsBody (pool : List Constant) (globals : Nat) (body : Fragment) : Prop :=
  ∃ locals count, locals ≤ Compile.maxNarrow + 1 ∧ count ≤ Compile.maxNarrow ∧
    Balanced body.instructions.toList ∧
    (∀ i ∈ body.instructions.toList, i.value.Proper ⟨pool, globals, locals, count, true⟩) ∧
    TargetsFit 0 body.instructions.toList

theorem Fragment.IsBody.mono {pool pool' : List Constant} {globals globals' : Nat}
    {body : Fragment} (h : body.IsBody pool globals) (hpool : pool <+: pool')
    (hglobals : globals ≤ globals') : body.IsBody pool' globals' := by
  obtain ⟨locals, count, hlocals, hcount, hbalanced, hproper, htargets⟩ := h
  refine ⟨locals, count, hlocals, hcount, hbalanced, fun i hi => (hproper i hi).mono ?_, htargets⟩
  exact ⟨hpool, hglobals, Nat.le_refl _, Nat.le_refl _, rfl⟩

/-- The functions that are added to the pool are those whose bodies are kept. -/
def Draft.Kept (d d₁ : Draft) : Prop :=
  ∃ new, d₁.bodies = d.bodies ++ new ∧
    functionCodes d₁.state.constants.toList =
      functionCodes d.state.constants.toList ++ new.map Fragment.assemble ∧
    ∀ body ∈ new, body.IsBody d₁.state.constants.toList d₁.state.scopes.root.definitions

/-- How a draft grows. -/
structure Draft.Grown (d d₁ : Draft) : Prop where
  valid : d₁.state.Valid
  limits : d.state.limits.Le d₁.state.limits
  kept : d.Kept d₁

namespace Draft.Grown

variable {d d₁ d₂ : Draft}

protected theorem refl (h : d.state.Valid) : d.Grown d :=
  ⟨h, .refl _, [], by simp, by simp, by simp⟩

protected theorem trans (h : d.Grown d₁) (h' : d₁.Grown d₂) : d.Grown d₂ := by
  obtain ⟨new, hnew, hcodes, hbodies⟩ := h.kept
  obtain ⟨new', hnew', hcodes', hbodies'⟩ := h'.kept
  refine ⟨h'.valid, h.limits.trans h'.limits, new ++ new', ?_, ?_, ?_⟩
  · rw [hnew', hnew, List.append_assoc]
  · rw [hcodes', hcodes, List.map_append, List.append_assoc]
  · intro body hbody
    rcases List.mem_append.mp hbody with hbody | hbody
    · exact (hbodies body hbody).mono h'.limits.pool h'.limits.globals
    · exact hbodies' body hbody

end Draft.Grown

/-- Wherever it starts, the compiler follows the one without limits, and the draft grows. -/
def Drafts (x : Compile α) (y : Drafting α) : Prop :=
  ∀ d : Draft, d.state.Valid → d.Follows x y fun _ d₁ => d.Grown d₁

namespace Drafts

open Compile

variable {x : Compile α} {y : Drafting α}

protected theorem bind {f : α → Compile β} {g : α → Drafting β} (h : Drafts x y)
    (hf : ∀ a, Drafts (f a) (g a)) : Drafts (x >>= f) (y >>= g) := by
  intro d hd
  refine (h d hd).bind fun a d₁ hgrown => ?_
  exact (hf a d₁ hgrown.valid).mono fun _ d₂ hgrown' => hgrown.trans hgrown'

protected theorem pure (a : α) : Drafts (pure a) (pure a) :=
  fun _ hd => .pure (.refl hd)

theorem limit (what : Quota) (count max : Nat) (span : Span) :
    Drafts (limit what count max span) (limit what count max span) := by
  intro d hd
  refine (Draft.Follows.limit what count max span d).mono fun _ d₁ h => ?_
  rw [h.2]
  exact .refl hd

/-- A step that looks at no limit and adds no constants. -/
theorem lift (h : ∀ ⦃st a st₁⦄, x.run st = .ok (a, st₁) → st.Valid →
    st₁.Valid ∧ st.limits.Le st₁.limits ∧ st₁.constants = st.constants) :
    Drafts x (liftM x) := by
  intro d hd
  refine (Draft.Follows.lift x d).mono fun a d₁ hrun => ?_
  obtain ⟨hrun, hbodies⟩ := hrun
  obtain ⟨hvalid, hlimits, hconstants⟩ := h hrun hd
  refine ⟨hvalid, hlimits, [], ?_, ?_, by simp⟩
  · rw [hbodies, List.append_nil]
  · rw [hconstants, List.map_nil, List.append_nil]

end Drafts

namespace Compile

theorem constants_resolve {name : String} {span : Span} {s : Symbol} {st st₁ : CompilerState}
    (h : (resolve name span).run st = .ok (s, st₁)) : st₁.constants = st.constants := by
  obtain ⟨scopes, -, rfl⟩ := withScopes_ok.mp h
  rfl

theorem drafts_resolve (name : String) (span : Span) :
    Drafts (resolve name span) (liftM (resolve name span)) := by
  refine .lift fun st s st₁ hrun hst => ?_
  obtain ⟨hvalid, hlimits, -⟩ := resolve_prepares hrun hst
  exact ⟨hvalid, hlimits, constants_resolve hrun⟩

theorem drafts_resolveCallee (name : String) (argc : Nat) (nameSpan callSpan : Span) :
    Drafts (resolveCallee name argc nameSpan callSpan)
      (liftM (resolveCallee name argc nameSpan callSpan)) := by
  refine .lift fun st s st₁ hrun hst => ?_
  have hresolve := resolve_of_resolveCallee hrun
  obtain ⟨hvalid, hlimits, -⟩ := resolve_prepares hresolve hst
  exact ⟨hvalid, hlimits, constants_resolve hresolve⟩

theorem drafts_resolveTarget (name : String) (span : Span) :
    Drafts (resolveTarget name span) (liftM (resolveTarget name span)) := by
  refine .lift fun st s st₁ hrun hst => ?_
  obtain ⟨hresolve, -, -⟩ := resolveTarget_ok hrun
  obtain ⟨hvalid, hlimits, -⟩ := resolve_prepares hresolve hst
  exact ⟨hvalid, hlimits, constants_resolve hresolve⟩

theorem drafts_declareName (mutability : Mutability) (name : String) (value : Expr) (span : Span) :
    Drafts (declareName mutability name value span)
      (liftM (declareName mutability name value span)) := by
  refine .lift fun st s st₁ hrun hst => ?_
  obtain ⟨hvalid, hlimits, -⟩ := declareName_prepares hrun hst
  obtain ⟨-, t, -, rfl⟩ := declareName_ok hrun
  exact ⟨hvalid, hlimits, rfl⟩

theorem drafts_storeNew (s : Symbol) (span : Span) (code : Fragment) :
    Drafts (storeNew s span code) (storeNew s span code) := by
  rw [storeNew, storeNew]
  split
  · exact .bind (.limit _ _ _ _) fun _ => .pure _
  · exact .bind (.limit _ _ _ _) fun _ => .pure _

/-- A constant is added in the same way. -/
theorem follows_addConstant (c : Constant) (span : Span) (d : Draft) :
    d.Follows (addConstant c span) (addConstant c span) fun n d₁ =>
      (addConstant c span).run d.state = .ok (n, d₁.state) ∧ d₁.bodies = d.bodies := by
  have hfollows : d.Follows (addConstant c span) (addConstant c span) fun _ d₁ =>
      d₁.bodies = d.bodies := by
    rw [addConstant, addConstant]
    refine (Draft.Follows.lift poolSize d).bind fun n d₁ h₁ => ?_
    refine (Draft.Follows.limit .constants n maxWide span d₁).bind fun _ d₂ h₂ => ?_
    refine (Draft.Follows.lift (pushConstant c) d₂).bind fun _ d₃ h₃ => .pure ?_
    rw [h₃.2, h₂.2, h₁.2]
  exact hfollows.run.mono fun n d₁ h => ⟨h.2, h.1⟩

theorem drafts_constant {c : Constant} (hc : ∀ f, c ≠ .function f) (span : Span)
    (code : Fragment) :
    Drafts (do
      let index ← addConstant c span
      return code.emit .constant [index] span) (do
      let index ← addConstant c span
      return code.emit .constant [index] span) := by
  refine .bind (fun d hd => ?_) fun n => .pure _
  refine (follows_addConstant c span d).mono fun n d₁ h => ?_
  obtain ⟨hrun, hbodies⟩ := h
  have hadvances := advances_addConstant hrun hd.sound
  obtain ⟨-, -, hstate⟩ := addConstant_ok.mp hrun
  have hpool : d₁.state.constants.toList = d.state.constants.toList ++ [c] := by
    rw [← hstate, Array.toList_push]
  refine ⟨?_, hadvances.limits, [], ?_, ?_, by simp⟩
  · refine valid_of_le hd hadvances.sound hadvances.limits fun f hf => ?_
    rw [hpool, List.mem_append, List.mem_singleton] at hf
    exact .inl (hf.resolve_right fun h => hc f h.symm)
  · rw [hbodies, List.append_nil]
  · have hnone : functionCodes [c] = [] := by
      cases c with
      | function f => exact absurd rfl (hc f)
      | integer | float | string => rfl
    rw [hpool, functionCodes_append, hnone, List.map_nil]

/-- A body that is complete, in a state whose limits it keeps to. -/
theorem isBody_of_emitted {st st' : CompilerState} {t : ScopeTable} {body : Fragment}
    {is : List (Located Instruction)}
    (he : Emitted { st with scopes := ⟨t, st.scopes.current :: st.scopes.outer⟩ } st' 0 is)
    (hplaced : Placed is {} body) (hlocals : st'.scopes.current.definitions ≤ maxNarrow + 1)
    (hcaptures : st'.scopes.current.captures.toList.length ≤ maxNarrow) :
    body.IsBody st'.constants.toList st'.scopes.root.definitions := by
  have hlimits := limits_of_inFunction he.limits.inFunction.symm
  rw [Array.length_toList] at hcaptures
  refine ⟨_, _, hlocals, hcaptures, ?_⟩
  rw [hplaced.instructions, ← hlimits]
  exact ⟨he.balanced, he.proper, hplaced.targets⟩

/-- A function is added after those that its body has added, in the pool as in what is kept. -/
theorem kept_function {d d₁ d₂ : Draft} {t : ScopeTable} {b : Block} {body : Fragment}
    {f : FunctionCode}
    (hstate : { d.state with scopes := ⟨t, d.state.scopes.current :: d.state.scopes.outer⟩ } =
      d₁.state) (hvalid : d₁.state.Valid) (hbodies : d₁.bodies = d.bodies) (hgrown : d₁.Grown d₂)
    (hbody : (block .body b ({} : Fragment)).run d₁.state = .ok (body, d₂.state))
    (hf : f.code = body.assemble)
    (hlocals : d₂.state.scopes.current.definitions ≤ maxNarrow + 1)
    (hcaptures : d₂.state.scopes.current.captures.toList.length ≤ maxNarrow) :
    d.Kept ⟨⟨d₂.state.scopes.leave?.getD {}, d₂.state.constants.push (.function f)⟩,
      d₂.bodies ++ [body]⟩ := by
  obtain ⟨is, hemitted, hplaced⟩ := emits_block .body b hbody hvalid
  obtain ⟨-, hplaced⟩ := hplaced hbody
  rw [← hstate] at hemitted
  -- the body has its own scope, so leaving it leads back to the scopes around
  have houter : d₂.state.scopes.outer ≠ [] := by
    have := hemitted.limits.inFunction
    simpa [CompilerState.limits, Scopes.isGlobal] using this
  obtain ⟨hroot, -⟩ := Scopes.leave_spec hgrown.valid.sound houter
  have hpool : d₂.state.constants.toList <+:
      (d₂.state.constants.push (.function f)).toList := by simp
  obtain ⟨new, hnew, hcodes, hbodies'⟩ := hgrown.kept
  refine ⟨new ++ [body], ?_, ?_, ?_⟩
  · show d₂.bodies ++ [body] = _
    rw [hnew, hbodies, List.append_assoc]
  · show functionCodes (d₂.state.constants.push (.function f)).toList = _
    have hlast : functionCodes [.function f] = [body.assemble] := by
      rw [← hf]
      rfl
    rw [Array.toList_push, functionCodes_append, hcodes, hlast, ← hstate, List.map_append,
      List.append_assoc]
    rfl
  · intro body' hbody'
    show body'.IsBody _ (d₂.state.scopes.leave?.getD {}).root.definitions
    rw [hroot]
    rcases List.mem_append.mp hbody' with hbody' | hbody'
    · exact (hbodies' body' hbody').mono hpool (Nat.le_refl _)
    · rw [List.mem_singleton.mp hbody']
      exact (isBody_of_emitted hemitted hplaced hlocals hcaptures).mono hpool (Nat.le_refl _)

/-- The body of a function is kept when the function is added to the pool. -/
theorem drafts_function {body : Block}
    (h : ∀ code : Fragment, Drafts (block .body body code) (block .body body code))
    (name? : Option String) (params : List Param) (span : Span) (code : Fragment) :
    Drafts (expr (.function name? params body span) code)
      (expr (.function name? params body span) code) := by
  intro d hd
  refine (Draft.Follows.run (Q := fun _ d₁ => d.Kept d₁) ?_).mono fun _ d₁ hrun => ?_
  · rw [expr, expr]
    refine (Draft.Follows.limit _ _ _ _ d).bind fun _ d₀ hlimit => ?_
    obtain ⟨-, rfl⟩ := hlimit
    refine (Draft.Follows.lift (enterFunction name? params) d₀).bind fun _ d₁ henter => ?_
    obtain ⟨henter, hbodies₁⟩ := henter
    obtain ⟨t, ht, hstate₁⟩ := enterFunction_ok henter hd.sound
    have hvalid : d₁.state.Valid := by
      rw [← hstate₁]
      exact valid_entered hd ht
    refine (h {} d₁ hvalid).run.bind fun bodyCode d₂ hbody => ?_
    obtain ⟨hgrown, hbody⟩ := hbody
    refine (Draft.Follows.lift leaveFunction d₂).bind fun table d₃ hleave => ?_
    obtain ⟨hleave, hbodies₃⟩ := hleave
    simp only [leaveFunction, bind_ok, get_ok, set_ok, pure_ok] at hleave
    obtain ⟨_, _, ⟨rfl, rfl⟩, _, _, rfl, rfl, hstate₃⟩ := hleave
    rw [makeClosure, makeClosure]
    refine (Draft.Follows.limit _ _ _ _ d₃).bind fun _ d' hlocals => ?_
    obtain ⟨hlocals, rfl⟩ := hlocals
    refine (Draft.Follows.limit _ _ _ _ d').bind fun _ d₃ hcaptures => ?_
    obtain ⟨hcaptures, rfl⟩ := hcaptures
    -- the body is kept here, after those of the functions inside it
    refine (follows_addConstant _ span d₃).bind fun n d₄ hadd => ?_
    obtain ⟨hadd, hbodies₄⟩ := hadd
    obtain ⟨-, -, hstate₄⟩ := addConstant_ok.mp hadd
    refine .done (d := { d₄ with bodies := d₄.bodies ++ [bodyCode] }) ?_
    rw [hbodies₄, hbodies₃, ← hstate₄, ← hstate₃]
    exact kept_function hstate₁ hvalid hbodies₁ hgrown hbody rfl hlocals hcaptures
  · obtain ⟨hkept, hrun⟩ := hrun
    obtain ⟨is, hemitted, -⟩ :=
      emits_function (emits_block .body body) name? params span hrun hd
    exact ⟨hemitted.valid, hemitted.limits, hkept⟩

mutual

theorem drafts_expr : ∀ (e : Expr) (code : Fragment), Drafts (expr e code) (expr e code)
  | .identifier name span, code => by
    rw [expr, expr]
    exact (drafts_resolve name span).bind fun _ => .pure _
  | .integer _ span, code | .float _ span, code | .string _ span, code => by
    rw [expr, expr]
    exact drafts_constant (by simp) span code
  | .boolean _ _, code | .null _, code => by
    rw [expr, expr]
    exact .pure _
  | .unary op operand span, code => by
    rw [expr, expr]
    exact (drafts_expr operand code).bind fun _ => .pure _
  | .binary op left right span, code => by
    rw [expr, expr]
    obtain ⟨opcode, exchanged⟩ := binaryOpcode op
    cases exchanged with
    | true =>
      refine (drafts_expr right code).bind fun code => ?_
      exact (drafts_expr left code).bind fun _ => .pure _
    | false =>
      refine (drafts_expr left code).bind fun code => ?_
      exact (drafts_expr right code).bind fun _ => .pure _
  | .conditional condition thenBranch elseBranch span, code => by
    rw [expr, expr]
    refine (drafts_expr condition code).bind fun code => ?_
    refine (drafts_block .arm thenBranch _).bind fun thenCode => .bind (.limit _ _ _ _) fun _ => ?_
    refine (drafts_alternative elseBranch span _).bind fun elseCode => ?_
    exact .bind (.limit _ _ _ _) fun _ => .pure _
  | .function name? params body span, code =>
    drafts_function (fun code => drafts_block .body body code) name? params span code
  | .call callee args span, code => by
    rw [expr, expr]
    refine .bind (.limit _ _ _ _) fun _ => ?_
    -- a callee that is a name is resolved for the call, any other one is compiled as a value
    have hargs : ∀ code : Fragment, Drafts
        (exprs args code >>= fun code => pure (code.emit .call [args.length] span))
        (exprs args code >>= fun code => pure (code.emit .call [args.length] span)) :=
      fun code => (drafts_exprs args code).bind fun _ => .pure _
    have hcallee := drafts_expr callee code
    cases callee with
    | identifier name nameSpan =>
      exact (drafts_resolveCallee _ _ _ _).bind fun _ => (Drafts.pure _).bind fun code => hargs code
    | _ => exact hcallee.bind fun code => hargs code
  | .array elements span, code => by
    rw [expr, expr]
    refine (drafts_exprs elements code).bind fun _ => ?_
    exact .bind (.limit _ _ _ _) fun _ => .pure _
  | .hash pairs span, code => by
    rw [expr, expr]
    refine (drafts_entries pairs code).bind fun _ => ?_
    exact .bind (.limit _ _ _ _) fun _ => .pure _
  | .index object index span, code => by
    rw [expr, expr]
    refine (drafts_expr object code).bind fun code => ?_
    exact (drafts_expr index code).bind fun _ => .pure _

theorem drafts_exprs : ∀ (es : List Expr) (code : Fragment), Drafts (exprs es code) (exprs es code)
  | [], code => by
    rw [exprs, exprs]
    exact .pure _
  | e :: rest, code => by
    rw [exprs, exprs]
    exact (drafts_expr e code).bind fun code => drafts_exprs rest code

theorem drafts_entries : ∀ (pairs : List (Expr × Expr)) (code : Fragment),
    Drafts (entries pairs code) (entries pairs code)
  | [], code => by
    rw [entries, entries]
    exact .pure _
  | (key, value) :: rest, code => by
    rw [entries, entries]
    refine (drafts_expr key code).bind fun code => ?_
    exact (drafts_expr value code).bind fun code => drafts_entries rest code

theorem drafts_alternative : ∀ (arm : Option Block) (span : Span) (code : Fragment),
    Drafts (alternative arm span code) (alternative arm span code)
  | none, span, code => by
    rw [alternative, alternative]
    exact .pure _
  | some arm, span, code => by
    rw [alternative, alternative]
    exact drafts_block .arm arm code

theorem drafts_block : ∀ (purpose : Purpose) (b : Block) (code : Fragment),
    Drafts (block purpose b code) (block purpose b code)
  | purpose, .mk statements span, code => by
    rw [block, block]
    exact (drafts_stmts statements code).bind fun _ => .pure _

theorem drafts_stmts : ∀ (statements : List Stmt) (code : Fragment),
    Drafts (stmts statements code) (stmts statements code)
  | [], code => by
    rw [stmts, stmts]
    exact .pure _
  | s :: rest, code => by
    rw [stmts, stmts]
    exact (drafts_stmt s code).bind fun code => drafts_stmts rest code

theorem drafts_stmt : ∀ (s : Stmt) (code : Fragment), Drafts (stmt s code) (stmt s code)
  | .expression e span, code => by
    rw [stmt, stmt]
    exact (drafts_expr e code).bind fun _ => .pure _
  | .declare mutability name value span, code => by
    rw [stmt, stmt]
    refine (drafts_declareName mutability name value span).bind fun s => ?_
    exact (drafts_expr value code).bind fun code => drafts_storeNew s span code
  | .assign name value span, code => by
    rw [stmt, stmt]
    refine (drafts_resolveTarget name span).bind fun s => ?_
    exact (drafts_expr value code).bind fun _ => .pure _
  | .ret none span, code => by
    rw [stmt, stmt]
    exact .pure _
  | .ret (some value) span, code => by
    rw [stmt, stmt]
    exact (drafts_expr value code).bind fun _ => .pure _

end

end Compile

/-! ### Programs -/

/-- All operands of the code fit their bytes, and each instruction is read where it stands, with the
operands that it was given. -/
def Fragment.Faithful (code : Fragment) : Prop :=
  ∀ ⦃k : Nat⦄ ⦃i : Located Instruction⦄, code.instructions.toList[k]? = some i → i.value.Fits ∧
    Instruction.decodeAt code.assemble.bytes (offsetAt code.instructions.toList k) =
      some (.ok i.value)

theorem Compiled.faithful {l : Limits} {code : Fragment}
    (h : Compiled l code.instructions.toList)
    (htargets : TargetsFit 0 code.instructions.toList) : code.Faithful := by
  intro k i hi
  have hmem : i ∈ code.instructions.toList := List.mem_of_getElem? hi
  have hhas : code.assemble.Has 0 code.instructions.toList := .of_bytes code.bytes_assemble htargets
  constructor
  · refine (h.proper i hmem).fits h.narrow fun hjump t ht => ?_
    have := htargets i hmem hjump t ht
    omega
  · have hdecode := hhas.decodeAt h hi
    rwa [Nat.zero_add, Instruction.moved_zero] at hdecode

theorem Fragment.IsBody.faithful {pool : List Constant} {globals : Nat} {body : Fragment}
    (h : body.IsBody pool globals) (hglobals : globals ≤ Scopes.globalLimit) : body.Faithful := by
  obtain ⟨locals, count, hlocals, hcount, hbalanced, hproper, htargets⟩ := h
  have hnarrow : Limits.Narrow ⟨pool, globals, locals, count, true⟩ :=
    ⟨hglobals, hlocals, Nat.le_succ_of_le hcount⟩
  exact Compiled.faithful ⟨hnarrow, hbalanced, hproper⟩ htargets

section

variable {st st₁ : CompilerState} {ast : Ast} {p : Program}

/-- The two compilers, on a program. -/
theorem matches_stmts (hst : st.Ready) (ast : Ast) :
    Matches (fun _ d => Draft.Grown ⟨st, []⟩ d)
      ((Compile.stmts ast.statements {} : Compile Fragment).run st)
      ((Compile.stmts ast.statements CodeBuilder.empty : Drafting Fragment).run ⟨st, []⟩) :=
  Compile.drafts_stmts ast.statements {} ⟨st, []⟩ hst.valid

/-- What is compiled is what the tree needs, and it is written in full. -/
theorem faithful_of_compileFrom (hst : st.Ready) (h : compileFrom st ast = .ok (p, st₁)) :
    ∃ needed, draftFrom st ast = .ok needed ∧ p.code = needed.main.assemble ∧
      functionCodes p.constants.toList =
        functionCodes st.constants.toList ++ needed.bodies.map Fragment.assemble ∧
      ∀ code ∈ needed.main :: needed.bodies, code.Faithful := by
  obtain ⟨hready, -, -⟩ := hst.compile h
  obtain ⟨is, hemitted, -, -, hplaces⟩ := hst.emitted h
  obtain ⟨code, hrun, -, -, -, rfl⟩ := Compile.compileFrom_ok h hst.valid.sound hst.outer
  obtain ⟨-, hplaced⟩ := hplaces hrun
  have hmatches := matches_stmts hst ast
  rw [hrun] at hmatches
  generalize hdrafts : (Compile.stmts ast.statements _ : Drafting Fragment).run ⟨st, []⟩ = r
    at hmatches
  cases hmatches with
  | @done _ d hgrown =>
  obtain ⟨new, hnew, hcodes, hbodies⟩ := hgrown.kept
  have hglobals : d.state.scopes.root.definitions ≤ Scopes.globalLimit := by
    rw [Scopes.root, hready.outer]
    exact hready.limit
  have hnarrow : d.state.limits.Narrow := by
    rw [hready.limits_eq]
    exact ⟨hready.limit, Nat.zero_le _, Nat.zero_le _⟩
  refine ⟨⟨code, d.bodies⟩, ?_, rfl, ?_, List.forall_mem_cons.mpr ⟨?_, ?_⟩⟩
  · rw [draftFrom, hdrafts]
    rfl
  · rw [hnew]
    exact hcodes
  · refine Compiled.faithful (l := d.state.limits) ?_ ?_
    · rw [hplaced.instructions]
      exact ⟨hnarrow, hemitted.balanced, hemitted.proper⟩
    · rw [hplaced.instructions]
      exact hplaced.targets
  · intro body hbody
    rw [hnew, List.nil_append] at hbody
    exact (hbodies body hbody).faithful hglobals

/-- No operand is cut off. Where the compiler succeeds, it gives the code that the tree needs, and
all operands fit their bytes, so that every instruction is read as it was meant. A tree that needs
an operand too large for its bytes, in the program or in a function, is refused for having too many
of something. -/
theorem operands_written (hst : st.Reachable) (ast : Ast) :
    (∀ p st₁, compileFrom st ast = .ok (p, st₁) → ∃ needed, draftFrom st ast = .ok needed ∧
      p.code = needed.main.assemble ∧
      functionCodes p.constants.toList =
        functionCodes st.constants.toList ++ needed.bodies.map Fragment.assemble ∧
      ∀ code ∈ needed.main :: needed.bodies, code.Faithful) ∧
    ∀ needed, draftFrom st ast = .ok needed →
      (∃ code ∈ needed.main :: needed.bodies, ∃ i ∈ code.instructions.toList, ¬ i.value.Fits) →
      ∃ what max span, compileFrom st ast = .error ⟨.tooMany what max, span⟩ := by
  refine ⟨fun p st₁ h => faithful_of_compileFrom hst.ready h, fun needed hneeded hwide => ?_⟩
  have hmatches := matches_stmts hst.ready ast
  generalize hrun : (Compile.stmts ast.statements {} : Compile Fragment).run st = r at hmatches
  generalize hdrafts : (Compile.stmts ast.statements _ : Drafting Fragment).run ⟨st, []⟩ = r'
    at hmatches
  cases hmatches with
  | @refused what max span =>
    exact ⟨what, max, span, compileInto_of_error hrun⟩
  | failed =>
    rw [draftFrom, hdrafts] at hneeded
    cases hneeded
  | @done code d =>
    -- then it is written in full, and nothing is too large
    have hcompile : compileFrom st ast = .ok (⟨code.assemble, d.state.constants⟩,
        { d.state with scopes := d.state.scopes.toRoot }) :=
      compileInto_of_ok hrun
    obtain ⟨needed', hneeded', -, -, hfaithful⟩ := faithful_of_compileFrom hst.ready hcompile
    rw [hneeded] at hneeded'
    cases hneeded'
    obtain ⟨code, hcode, i, hi, hnot⟩ := hwide
    obtain ⟨k, hk⟩ := List.getElem?_of_mem hi
    exact absurd (hfaithful code hcode hk).1 hnot

end

/-- `let g = fn(f) { f(null, ..., null) }`, with so many arguments. -/
def passesNulls (count : Nat) : Ast :=
  let call : Expr := .call (.identifier "f" {}) (List.replicate count (.null {})) {}
  ⟨[.declare .constant "g" (.function none [⟨"f", {}⟩] (.mk [.expression call {}] {}) {}) {}]⟩

theorem draft_passesNulls : ((draftFrom {} (passesNulls 256)).toOption.map fun needed =>
    needed.bodies.map fun body => body.instructions.toList[257]?) =
      some [some ⟨⟨.call, [256]⟩, {}⟩] := by
  decide +kernel

theorem compile_passesNulls : (compileFrom {} (passesNulls 255)).toOption.isSome = true := by
  decide +kernel

/-- One argument more than can be written is refused, and as many as can be written are written. -/
theorem passesNulls_written :
    (∃ needed, draftFrom {} (passesNulls 256) = .ok needed ∧
      (∃ code ∈ needed.main :: needed.bodies, ∃ i ∈ code.instructions.toList, ¬ i.value.Fits) ∧
      ∃ what max span, compileFrom {} (passesNulls 256) = .error ⟨.tooMany what max, span⟩) ∧
    ∃ p st needed, compileFrom {} (passesNulls 255) = .ok (p, st) ∧
      draftFrom {} (passesNulls 255) = .ok needed ∧
      ∀ code ∈ needed.main :: needed.bodies, code.Faithful := by
  constructor
  · obtain ⟨needed, hneeded, h⟩ := Option.map_eq_some_iff.mp draft_passesNulls
    obtain ⟨body, bodies, hbodies, hcall, -⟩ := List.map_eq_cons_iff.mp h
    have hwide : ∃ code ∈ needed.main :: needed.bodies, ∃ i ∈ code.instructions.toList,
        ¬ i.value.Fits := by
      refine ⟨body, by simp [hbodies], _, List.mem_of_getElem? hcall, fun hfits => ?_⟩
      cases hfits with
      | cons hlt _ => exact absurd hlt (by decide)
    exact ⟨needed, eq_ok_of_toOption hneeded, hwide,
      (operands_written .init (passesNulls 256)).2 needed (eq_ok_of_toOption hneeded) hwide⟩
  · obtain ⟨⟨p, st⟩, hcompile⟩ := Option.isSome_iff_exists.mp compile_passesNulls
    obtain ⟨needed, hneeded, -, -, hfaithful⟩ :=
      (operands_written .init (passesNulls 255)).1 p st (eq_ok_of_toOption hcompile)
    exact ⟨p, st, needed, eq_ok_of_toOption hcompile, hneeded, hfaithful⟩

end Bytescript
