/-
Code under construction.

A fragment is a sequence of located instructions that will stand at a known offset. Its size is
known before its jumps are, since the size of an instruction does not depend on its operands.
-/
import Bytescript.Bytecode.Program
import Bytescript.Source.Located

namespace Bytescript

/-- Number of bytes of instructions. -/
def totalWidth : List (Located Instruction) → Nat
  | [] => 0
  | i :: rest => i.value.opcode.width + totalWidth rest

theorem totalWidth_append (is js : List (Located Instruction)) :
    totalWidth (is ++ js) = totalWidth is + totalWidth js := by
  induction is with
  | nil => exact (Nat.zero_add _).symm
  | cons i rest ih => rw [List.cons_append, totalWidth, ih, totalWidth, Nat.add_assoc]

/-- Located instructions that begin at the offset `start`. -/
structure Fragment where
  start : Nat := 0
  instructions : Array (Located Instruction) := #[]
  /-- Number of bytes of the instructions, so that they need not be counted for every jump. -/
  size : Nat := 0
  size_eq : size = totalWidth instructions.toList := by rfl

namespace Fragment

/-- The fragment without instructions at an offset. -/
def startingAt (start : Nat) : Fragment :=
  { start }

/-- The offset just after the fragment. -/
def stop (fragment : Fragment) : Nat :=
  fragment.start + fragment.size

/-- Adds an instruction. -/
def emit (fragment : Fragment) (opcode : Opcode) (operands : List Nat) (span : Span) : Fragment :=
  { fragment with
    instructions := fragment.instructions.push ⟨⟨opcode, operands⟩, span⟩
    size := fragment.size + opcode.width
    size_eq := by simp [fragment.size_eq, totalWidth_append, totalWidth] }

/-- Adds the instructions of another fragment. -/
def append (fragment other : Fragment) : Fragment :=
  { fragment with
    instructions := fragment.instructions ++ other.instructions
    size := fragment.size + other.size
    size_eq := by simp [fragment.size_eq, other.size_eq, totalWidth_append] }

/-- Tells whether the last instruction was added after `start` and has an opcode. -/
def endsIn (start fragment : Fragment) (opcode : Opcode) : Bool :=
  start.instructions.size < fragment.instructions.size &&
    fragment.instructions.back?.any (·.value.opcode = opcode)

/-- Removes the last instruction. -/
def removeLast (fragment : Fragment) : Fragment :=
  { fragment with
    instructions := fragment.instructions.pop
    size := fragment.size - (fragment.instructions.back?.map (·.value.opcode.width)).getD 0
    size_eq := by
      cases hlast : fragment.instructions.back? with
      | none => simp_all [fragment.size_eq]
      | some last =>
        obtain ⟨front, hfront⟩ := Array.back?_eq_some_iff.mp hlast
        simp [fragment.size_eq, hfront, totalWidth_append, totalWidth] }

/-- Puts an instruction without operands in the place of the last one. -/
def replaceLast (fragment : Fragment) (opcode : Opcode) : Fragment :=
  match fragment.instructions.back? with
  | some last => fragment.removeLast.emit opcode [] last.span
  | none => fragment

/-- Adds both arms of a conditional after its condition. -/
def joinArms (span : Span) (fragment thenCode elseCode : Fragment) : Fragment :=
  let fragment := (fragment.emit .jumpNotTruthy [elseCode.start] span).append thenCode
  (fragment.emit .jump [elseCode.stop] span).append elseCode

/-- The bytes of the instructions, each with the span of its instruction. -/
def assemble (fragment : Fragment) : Code :=
  fragment.instructions.foldl
    (fun code i =>
      let encoded : List UInt8 := i.value.encode
      ⟨code.bytes ++ encoded, code.spans ++ List.replicate encoded.length i.span⟩)
    {}

end Fragment

end Bytescript
