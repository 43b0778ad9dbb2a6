/-
Code that is written in place.

Instructions are added at the end of one buffer of bytes. A jump is written before its target is
known, with `pendingJump` in the place of the target, and overwritten when it is. The buffer
remembers the last two instructions that were added, so that the last one can be taken back or
replaced.
-/
import Bytescript.Bytecode.Program

namespace Bytescript

/-- Overwrites bytes from an offset on. -/
def overwrite (bytes : Array UInt8) : (offset : Nat) → List UInt8 → Array UInt8
  | _, [] => bytes
  | offset, b :: rest => overwrite (bytes.setIfInBounds offset b) (offset + 1) rest

theorem size_overwrite (bytes : Array UInt8) (offset : Nat) (new : List UInt8) :
    (overwrite bytes offset new).size = bytes.size := by
  induction new generalizing bytes offset with
  | nil => rfl
  | cons b rest ih => rw [overwrite, ih, Array.size_setIfInBounds]

/-- An instruction that was added, and the offset where it stands. -/
structure Buffer.Mark where
  opcode : Opcode
  position : Nat
  deriving DecidableEq, Repr

/-- Code that is written in place, and the instructions that were added last. -/
structure Buffer where
  code : Code := {}
  last? : Option Buffer.Mark := none
  /-- The instruction before the last one; unknown after one was taken back. -/
  previous? : Option Buffer.Mark := none
  /-- Every byte has its span. -/
  size_spans : code.spans.size = code.bytes.size := by rfl
  last_lt : ∀ last, last? = some last → last.position < code.bytes.size := by simp
  previous_lt : ∀ previous last, previous? = some previous → last? = some last →
    previous.position < last.position := by simp

namespace Buffer

/-- The buffer without code. -/
def empty : Buffer := {}

/-- The target of a jump that is not known yet. -/
def pendingJump : Nat := 9999

/-- The number of bytes. -/
def size (buffer : Buffer) : Nat :=
  buffer.code.bytes.size

/-- Adds an instruction. -/
def emit (buffer : Buffer) (opcode : Opcode) (operands : List Nat) (span : Span) : Buffer :=
  let encoded := Instruction.encode ⟨opcode, operands⟩
  { code := ⟨buffer.code.bytes ++ encoded,
      buffer.code.spans ++ List.replicate encoded.length span⟩
    last? := some ⟨opcode, buffer.size⟩
    previous? := buffer.last?
    size_spans := by simpa [← Array.length_toList] using buffer.size_spans
    last_lt := by simp [← Array.length_toList, size, encoded, Instruction.encode]
    previous_lt := by
      rintro previous _ hprevious ⟨⟩
      exact buffer.last_lt previous hprevious }

/-- Tells whether the last instruction was added after `start` and has an opcode. -/
def endsIn (start buffer : Buffer) (opcode : Opcode) : Bool :=
  buffer.last?.any fun last => last.opcode = opcode && start.size ≤ last.position

/-- Takes the last instruction back. -/
def removeLast (buffer : Buffer) : Buffer :=
  match h : buffer.last? with
  | some last =>
    { code := ⟨buffer.code.bytes.take last.position, buffer.code.spans.take last.position⟩
      last? := buffer.previous?
      size_spans := by simp [buffer.size_spans]
      last_lt := by
        intro previous hprevious
        have hbefore := buffer.previous_lt previous last hprevious h
        have hlt := Nat.lt_trans hbefore (buffer.last_lt last h)
        simpa using Nat.lt_min.mpr ⟨hbefore, hlt⟩ }
  | none => buffer

/-- Overwrites the instruction at an offset; its spans stay. -/
def replaceAt (buffer : Buffer) (position : Nat) (i : Instruction) : Buffer :=
  { buffer with
    code.bytes := overwrite buffer.code.bytes position i.encode
    size_spans := by rw [size_overwrite, buffer.size_spans]
    last_lt := by simpa [size_overwrite] using buffer.last_lt }

/-- Puts an instruction of the same width in the place of the last one. -/
def replaceLast (buffer : Buffer) (opcode : Opcode) : Buffer :=
  match h : buffer.last? with
  | some last =>
    { buffer.replaceAt last.position ⟨opcode, []⟩ with
      last? := some { last with opcode }
      last_lt := by
        rintro _ ⟨⟩
        exact (buffer.replaceAt last.position ⟨opcode, []⟩).last_lt last h
      previous_lt := by
        rintro previous _ hprevious ⟨⟩
        exact buffer.previous_lt previous last hprevious h }
  | none => buffer

/-- Lets the jump at an offset lead to the end of the code. -/
def patchJump (buffer : Buffer) (position : Nat) (opcode : Opcode) : Buffer :=
  buffer.replaceAt position ⟨opcode, [buffer.size]⟩

end Buffer

end Bytescript
