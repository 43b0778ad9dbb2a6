/-
The bound on the depth of calls.

Main statement: `Meaning.program_mono`. An evaluation that does not run out of nested calls gives
the same result with every larger bound. So a program has one meaning: the result with any bound
that suffices.
-/
import Bytescript.Proofs.Meaning

namespace Bytescript

namespace Meaning

variable {α β : Type}

/-- The evaluation `y` does what `x` does, unless `x` runs out of nested calls. -/
def Refines (x y : Meaning α) : Prop :=
  ∀ σ, (eval x σ).1 = .error .exhausted ∨ eval y σ = eval x σ

namespace Refines

protected theorem refl (x : Meaning α) : Refines x x :=
  fun _ => .inr rfl

protected theorem bind {x y : Meaning α} {f g : α → Meaning β} (h : Refines x y)
    (hf : ∀ a, Refines (f a) (g a)) : Refines (x >>= f) (y >>= g) := by
  intro σ
  rw [eval_bind, eval_bind]
  -- if the first part runs out of calls, so does the whole
  rcases h σ with h | h
  · left
    generalize eval x σ = result at h
    obtain ⟨r, σ'⟩ := result
    cases h
    rfl
  · rw [h]
    rcases eval x σ with ⟨stop | a, σ'⟩
    · exact .inr rfl
    · exact hf a σ'

theorem returning {x y : Meaning Value} (h : Refines x y) :
    Refines (Meaning.returning x) (Meaning.returning y) := by
  intro σ
  rw [eval_returning, eval_returning]
  rcases h σ with h | h
  · left
    generalize eval x σ = result at h
    obtain ⟨r, σ'⟩ := result
    cases h
    rfl
  · rw [h]
    exact .inr rfl

end Refines

/-- A caller that does what another does, unless that runs out of nested calls. -/
def Caller.Refines (caller caller' : Caller) : Prop :=
  ∀ r self args, Meaning.Refines (caller r self args) (caller' r self args)

section

variable {caller caller' : Caller} (h : caller.Refines caller')
include h

theorem refines_apply (callee : Value) (args : List Value) :
    Refines (apply caller callee args) (apply caller' callee args) := by
  cases callee with
  | closure identity code free =>
    refine (Refines.refl get).bind fun σ => ?_
    cases σ.routines identity with
    | none => exact .refl _
    | some r =>
      dsimp only
      split
      · exact h _ _ _
      · exact .refl _
  | null | boolean | integer | float | string | array | hash | builtin | function => exact .refl _

end

section

variable (order : ResolutionOrder) {caller caller' : Caller} (activation : Activation)

mutual

theorem refines_expr (h : caller.Refines caller') (scope : List String) : ∀ e : Expr,
    Refines (expr order caller activation scope e) (expr order caller' activation scope e)
  | .identifier .. | .integer .. | .float .. | .string .. | .boolean .. | .null _
  | .function .. => by
    simp only [expr]
    exact .refl _
  | .unary op operand _ => by
    simp only [expr]
    exact (refines_expr h scope operand).bind fun _ => .refl _
  | .binary op left right _ => by
    simp only [expr]
    split
    · exact (refines_expr h _ right).bind fun _ => (refines_expr h _ left).bind fun _ => .refl _
    · exact (refines_expr h _ left).bind fun _ => (refines_expr h _ right).bind fun _ => .refl _
  | .conditional condition thenBranch elseBranch _ => by
    simp only [expr]
    refine (refines_expr h scope condition).bind fun v => ?_
    split
    · exact refines_block h _ thenBranch
    · exact refines_alternative h _ elseBranch
  | .call callee args _ => by
    simp only [expr]
    exact (refines_expr h scope callee).bind fun f => (refines_exprs h _ args).bind fun vs =>
      refines_apply h f vs
  | .array elements _ => by
    simp only [expr]
    exact (refines_exprs h scope elements).bind fun _ => .refl _
  | .hash pairs _ => by
    simp only [expr]
    exact (refines_entries h scope pairs).bind fun _ => .refl _
  | .index object index _ => by
    simp only [expr]
    exact (refines_expr h scope object).bind fun _ => (refines_expr h _ index).bind fun _ =>
      .refl _

theorem refines_exprs (h : caller.Refines caller') (scope : List String) : ∀ es : List Expr,
    Refines (exprs order caller activation scope es) (exprs order caller' activation scope es)
  | [] => by
    simp only [exprs]
    exact .refl _
  | e :: rest => by
    simp only [exprs]
    exact (refines_expr h scope e).bind fun _ => (refines_exprs h _ rest).bind fun _ => .refl _

theorem refines_entries (h : caller.Refines caller') (scope : List String) :
    ∀ pairs : List (Expr × Expr), Refines (entries order caller activation scope pairs)
      (entries order caller' activation scope pairs)
  | [] => by
    simp only [entries]
    exact .refl _
  | (key, value) :: rest => by
    simp only [entries]
    exact (refines_expr h scope key).bind fun _ => (refines_expr h _ value).bind fun _ =>
      (refines_entries h _ rest).bind fun _ => .refl _

theorem refines_alternative (h : caller.Refines caller') (scope : List String) :
    ∀ arm : Option Block, Refines (alternative order caller activation scope arm)
      (alternative order caller' activation scope arm)
  | none => by
    simp only [alternative]
    exact .refl _
  | some arm => by
    simp only [alternative]
    exact refines_block h scope arm

theorem refines_block (h : caller.Refines caller') (scope : List String) : ∀ b : Block,
    Refines (block order caller activation scope b) (block order caller' activation scope b)
  | .mk statements _ => by
    simp only [block]
    exact refines_valued h scope statements

theorem refines_valued (h : caller.Refines caller') (scope : List String) :
    ∀ statements : List Stmt, Refines (valued order caller activation scope statements)
      (valued order caller' activation scope statements)
  | [] => by
    simp only [valued]
    exact .refl _
  | [.expression e _] => by
    simp only [valued]
    exact refines_expr h scope e
  | [.declare mutability name value span] => by
    simp only [valued]
    exact (refines_stmt h scope (.declare mutability name value span)).bind fun _ => .refl _
  | [.assign name value span] => by
    simp only [valued]
    exact (refines_stmt h scope (.assign name value span)).bind fun _ => .refl _
  | [.ret value span] => by
    simp only [valued]
    exact (refines_stmt h scope (.ret value span)).bind fun _ => .refl _
  | s :: s' :: rest => by
    -- the equation of a longer list is given for each form of its first statement
    have hcons : ∀ caller : Caller, valued order caller activation scope (s :: s' :: rest) =
        stmt order caller activation scope s >>= fun _ =>
          valued order caller activation (scope ++ s.declared) (s' :: rest) :=
      fun _ => valued_cons (by simp) scope
    rw [hcons, hcons]
    exact (refines_stmt h scope s).bind fun _ => refines_valued h _ (s' :: rest)

theorem refines_stmt (h : caller.Refines caller') (scope : List String) : ∀ s : Stmt,
    Refines (stmt order caller activation scope s) (stmt order caller' activation scope s)
  | .expression e _ => by
    simp only [stmt]
    exact (refines_expr h scope e).bind fun _ => .refl _
  | .declare _ name value _ => by
    simp only [stmt]
    exact (refines_expr h _ value).bind fun _ => .refl _
  | .assign name value _ => by
    simp only [stmt]
    exact (refines_expr h scope value).bind fun _ => .refl _
  | .ret none _ => by
    simp only [stmt]
    exact .refl _
  | .ret (some value) _ => by
    simp only [stmt]
    exact (refines_expr h scope value).bind fun _ => .refl _

end

theorem refines_stmts (h : caller.Refines caller') (scope : List String) (statements : List Stmt) :
    Refines (stmts order caller activation scope statements)
      (stmts order caller' activation scope statements) := by
  induction statements generalizing scope with
  | nil => exact .refl _
  | cons s rest ih => exact (refines_stmt order activation h scope s).bind fun _ => ih _

end

/-- A larger bound gives the same calls, unless the smaller one is exceeded. -/
theorem refines_invoke (order : ResolutionOrder) {depth depth' : Nat} (h : depth ≤ depth') :
    Caller.Refines (invoke order depth) (invoke order depth') := by
  induction depth generalizing depth' with
  | zero => exact fun _ _ _ _ => .inl rfl
  | succ depth ih =>
    obtain ⟨depth', rfl⟩ : ∃ n, depth' = n + 1 := ⟨depth' - 1, by omega⟩
    intro r self args
    rw [invoke, invoke]
    -- only the calls that the body makes know the bound
    refine (Refines.refl get).bind fun σ => (Refines.refl _).bind fun _ => ?_
    refine (Refines.returning ?_).bind fun _ => .refl _
    exact refines_block order _ (ih (by omega)) _ r.body

theorem program_mono {order : ResolutionOrder} {depth depth' identity : Nat} {ast : Ast}
    (h : depth ≤ depth') (hends : (program order depth identity ast).1 ≠ .exhausted) :
    program order depth' identity ast = program order depth identity ast := by
  have hrefines := refines_stmts order .main (refines_invoke order h) [] ast.statements
    { nextIdentity := identity }
  rcases hrefines with hexhausted | heq
  · refine absurd ?_ hends
    show (ending (eval _ _)).1 = .exhausted
    generalize eval (stmts order (invoke order depth) .main [] ast.statements)
      { nextIdentity := identity } = result at hexhausted ⊢
    obtain ⟨r, σ⟩ := result
    cases hexhausted
    rfl
  · exact congrArg ending heq

end Meaning

end Bytescript
