/-
Printing and parsing are inverse to each other.

Main statement: a program that was read from a text and passes the test `Ast.isRenderable` is
printed as a text that is read as the same program, places aside, and printed the same again
(`parseSource_render`).

Design notes: the two halves meet at the tokens. What the parser returns is written by tokens
(`Renderable`), the text is scanned into these tokens (`Spelling`), and the parser reads the same
tree from them (`Reading`). The printer ignores places, so trees that agree without them have one
text.
-/
import Bytescript.Proofs.Reading
import Bytescript.Proofs.Renderable
import Bytescript.Proofs.Spelling

namespace Bytescript

/-! ### Places are not printed -/

mutual

theorem Expr.render_unlocated : ∀ e : Expr, e.unlocated.render = e.render
  | .identifier .. | .integer .. | .float .. | .string .. | .boolean .. | .null _ => rfl
  | .unary op operand _ => by
    rw [Expr.unlocated, Expr.render, Expr.render, operand.render_unlocated]
  | .binary op left right _ => by
    rw [Expr.unlocated, Expr.render, Expr.render, left.render_unlocated, right.render_unlocated]
  | .conditional condition thenBranch elseBranch _ => by
    rw [Expr.unlocated, Expr.render, Expr.render, condition.render_unlocated,
      thenBranch.render_unlocated, renderElse_unlocated elseBranch]
  | .function name params body _ => by
    have hparams : (params.map Param.unlocated).map Param.name = params.map Param.name :=
      List.map_map
    simp only [Expr.unlocated, Expr.render, hparams, body.render_unlocated]
  | .call callee args _ => by
    rw [Expr.unlocated, Expr.render, Expr.render, callee.render_unlocated, renderAll_unlocated args]
  | .array elements _ => by
    rw [Expr.unlocated, Expr.render, Expr.render, renderAll_unlocated elements]
  | .hash entries _ => by
    rw [Expr.unlocated, Expr.render, Expr.render, renderEntries_unlocated entries]
  | .index object index _ => by
    rw [Expr.unlocated, Expr.render, Expr.render, object.render_unlocated, index.render_unlocated]

theorem renderAll_unlocated : ∀ es : List Expr, renderAll (unlocatedAll es) = renderAll es
  | [] => rfl
  | e :: rest => by
    rw [unlocatedAll, renderAll, renderAll, e.render_unlocated, renderAll_unlocated rest]

theorem renderEntries_unlocated : ∀ entries : List (Expr × Expr),
    renderEntries (unlocatedEntries entries) = renderEntries entries
  | [] => rfl
  | (key, value) :: rest => by
    rw [unlocatedEntries, renderEntries, renderEntries, key.render_unlocated,
      value.render_unlocated, renderEntries_unlocated rest]

theorem renderElse_unlocated : ∀ elseBranch : Option Block,
    renderElse (unlocatedElse elseBranch) = renderElse elseBranch
  | none => rfl
  | some block => by rw [unlocatedElse, renderElse, renderElse, block.render_unlocated]

theorem Stmt.render_unlocated : ∀ s : Stmt, s.unlocated.render = s.render
  | .ret none _ => rfl
  | .declare _ _ value _ | .assign _ value _ | .ret (some value) _ => by
    rw [Stmt.unlocated, Stmt.render, Stmt.render, value.render_unlocated]
  | .expression e _ => by rw [Stmt.unlocated, Stmt.render, Stmt.render, e.render_unlocated]

theorem renderStatements_unlocated : ∀ statements : List Stmt,
    renderStatements (unlocatedStatements statements) = renderStatements statements
  | [] => rfl
  | s :: rest => by
    rw [unlocatedStatements, renderStatements, renderStatements, s.render_unlocated,
      renderStatements_unlocated rest]

theorem Block.render_unlocated : ∀ block : Block, block.unlocated.render = block.render
  | .mk [] _ => rfl
  | .mk (s :: rest) _ => by
    rw [Block.unlocated, unlocatedStatements, Block.render, Block.render, s.render_unlocated,
      renderStatements_unlocated rest]

end

theorem Ast.render_unlocated (ast : Ast) : ast.unlocated.render = ast.render := by
  rw [Ast.render, Ast.unlocated, renderStatements_unlocated, ← Ast.render]

/-! ### Reading what was printed -/

/-- The text of a program that was read from a text and passes the test is read as the same program,
and this has the same text again. -/
theorem parseSource_render {file file' source : String} {ast : Ast}
    (hparse : parseSource file source = .ok ast) (htest : ast.isRenderable = true) :
    ∃ again, parseSource file' ast.render = .ok again ∧ again.unlocated = ast.unlocated ∧
      again.render = ast.render := by
  obtain ⟨ks, hspelled⟩ := parseSource_spelled hparse htest
  obtain ⟨tokens, hscan, hkinds⟩ := hspelled.scan_render
  obtain ⟨again, hagain, hsame⟩ := hspelled.parse hkinds
  refine ⟨again, parseSource_ok_iff.mpr ⟨tokens, hscan, hagain⟩, hsame, ?_⟩
  calc again.render
    _ = again.unlocated.render := again.render_unlocated.symm
    _ = ast.unlocated.render := by rw [hsame]
    _ = ast.render := ast.render_unlocated

/-- Calls, operators, an index, a hash, a list and a string, nested in a conditional and a
function. -/
def nestedSource : String :=
  "let x = [1 - -2 * 3, \"\\n\"]; fn(a) \x7b " ++
    "if (a[0]) \x7b \x7ba: !x\x7d \x7d else \x7b return; \x7d \x7d(x)()"

/-- The text of that program. -/
def nestedText : String :=
  "let x = [(1 - ((-2) * 3)), \"\\n\"]; fn(a) \x7b " ++
    "if ((a[0])) \x7b \x7ba: (!x)\x7d \x7d else \x7b return; \x7d \x7d(x)()"

theorem parseSource_render_nested : ∃ ast, parseSource "nested" nestedSource = .ok ast ∧
    ast.isRenderable = true ∧ ast.render = nestedText ∧
    ∃ again, parseSource "again" nestedText = .ok again ∧ again.unlocated = ast.unlocated ∧
      again.render = nestedText := by
  have hcheck : (parseSource "nested" nestedSource).toOption.any
      (fun ast => ast.isRenderable && ast.render == nestedText) = true := by
    decide +kernel
  cases hparse : parseSource "nested" nestedSource with
  | error d =>
    rw [hparse] at hcheck
    cases hcheck
  | ok ast =>
    rw [hparse] at hcheck
    obtain ⟨htest, hrender⟩ : ast.isRenderable = true ∧ ast.render = nestedText := by
      simpa [Except.toOption] using hcheck
    exact ⟨ast, rfl, htest, hrender, hrender ▸ parseSource_render hparse htest⟩

end Bytescript
