/-
Ways to build code.

The compiler adds instructions one after another, joins the arms of a conditional by jumps, and
looks back at the last instruction to let a block give a value. Each kind of code has its own way
to place a jump over code that does not exist yet. Fragments build an arm apart and add the jump
and the arm when the target is known. A buffer has the jump written first and patched later.
-/
import Bytescript.Bytecode.Buffer
import Bytescript.Bytecode.Fragment

namespace Bytescript

/-- Code that can be built instruction by instruction. -/
class CodeBuilder (C : Type) where
  /-- Code without instructions. -/
  empty : C
  /-- Adds an instruction. -/
  emit (code : C) (opcode : Opcode) (operands : List Nat) (span : Span) : C
  /-- Tells whether the last instruction was added after `start` and has an opcode. -/
  endsIn (start code : C) (opcode : Opcode) : Bool
  /-- Takes the last instruction back. -/
  removeLast (code : C) : C
  /-- Puts an instruction without operands in the place of the last one. -/
  replaceLast (code : C) (opcode : Opcode) : C
  /-- The code to which the first arm of a conditional is added, after its condition `code`. -/
  openThen (span : Span) (code : C) : C
  /-- The code to which the second arm is added. -/
  openElse (span : Span) (code thenCode : C) : C
  /-- The target of the jump at the end of `code` when it leads to the end of `target`, at the span
  of the jump. -/
  jumpTarget (span : Span) (code target : C) : Located Nat
  /-- Completes a conditional. -/
  joinArms (span : Span) (code thenCode elseCode : C) : C
  /-- The bytes with their spans. -/
  assemble (code : C) : Code

instance : CodeBuilder Fragment where
  empty := .startingAt 0
  emit := Fragment.emit
  endsIn := Fragment.endsIn
  removeLast := Fragment.removeLast
  replaceLast := Fragment.replaceLast
  openThen _ code := .startingAt (code.stop + Opcode.jumpNotTruthy.width)
  openElse _ _ thenCode := .startingAt (thenCode.stop + Opcode.jump.width)
  jumpTarget span _ target := ⟨target.stop, span⟩
  joinArms := Fragment.joinArms
  assemble := Fragment.assemble

instance : CodeBuilder Buffer where
  empty := .empty
  emit := Buffer.emit
  endsIn := Buffer.endsIn
  removeLast := Buffer.removeLast
  replaceLast := Buffer.replaceLast
  openThen span code := code.emit .jumpNotTruthy [Buffer.pendingJump] span
  openElse span code thenCode :=
    (thenCode.emit .jump [Buffer.pendingJump] span).patchJump code.size .jumpNotTruthy
  jumpTarget _ code target := ⟨target.size, target.code.spanAt code.size⟩
  joinArms _ _ thenCode elseCode := elseCode.patchJump thenCode.size .jump
  assemble := Buffer.code

end Bytescript
