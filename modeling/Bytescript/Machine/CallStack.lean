/-
The active calls of a machine.

Each call has a frame. A frame knows where its locals begin on the stack, which all frames share;
the called closure stands just below them. The frames are counted as they come and go, so that a
limit on their number costs no more in a deep recursion than in a flat one.
-/
import Bytescript.Machine.Host

namespace Bytescript

/-- An active call. -/
structure Frame (V : Type) where
  closure : Closure V
  /-- Offset of the next instruction. -/
  ip : Nat := 0
  /-- Place of the first local on the stack. -/
  base : Nat := 0

namespace Frame

variable {V : Type}

/-- The code of the running function. -/
def code (frame : Frame V) : Code :=
  frame.closure.code.code

/-- Nothing is left to execute. -/
def isFinished (frame : Frame V) : Bool :=
  frame.code.bytes.size ≤ frame.ip

/-- The place in the source of the instruction fetched last. -/
def span (frame : Frame V) : Span :=
  frame.code.spanAt (frame.ip - 1)

end Frame

/-- The active calls with their number. -/
structure CallStack (V : Type) where
  /-- Innermost first. -/
  frames : List (Frame V) := []
  depth : Nat := frames.length
  depth_eq : depth = frames.length := by rfl

namespace CallStack

variable {V : Type}

/-- Enters a call. -/
def push (calls : CallStack V) (frame : Frame V) : CallStack V where
  frames := frame :: calls.frames
  depth := calls.depth + 1
  depth_eq := by simp [calls.depth_eq]

/-- Leaves the innermost call. -/
def pop (calls : CallStack V) : CallStack V where
  frames := calls.frames.tail
  depth := calls.depth - 1
  depth_eq := by simp [calls.depth_eq]

/-- Lets the innermost call go on at an offset. -/
def setPointer (calls : CallStack V) (ip : Nat) : CallStack V :=
  match calls with
  | ⟨[], depth, depth_eq⟩ => ⟨[], depth, depth_eq⟩
  | ⟨frame :: callers, depth, depth_eq⟩ => ⟨{ frame with ip } :: callers, depth, depth_eq⟩

@[simp]
theorem frames_push (calls : CallStack V) (frame : Frame V) :
    (calls.push frame).frames = frame :: calls.frames := rfl

@[simp]
theorem frames_pop (calls : CallStack V) : calls.pop.frames = calls.frames.tail := rfl

@[simp]
theorem frames_setPointer (calls : CallStack V) (ip : Nat) :
    (calls.setPointer ip).frames = calls.frames.modifyHead ({ · with ip }) := by
  rcases calls with ⟨_ | _, _, _⟩ <;> rfl

end CallStack

end Bytescript
