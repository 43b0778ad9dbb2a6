/-
The stack machine.

`Machine.step` executes one instruction and `Machine.run` goes on until the main code ends or
returns. Both are functions on the state of the machine, which stays as the failing instruction
left it. A run is bounded by fuel.
-/
import Bytescript.Machine.CallStack

namespace Bytescript

/-- Limits of a machine. -/
structure MachineConfig where
  stackSize : Nat := 2048
  maxFrames : Nat := 1024
  globalsSize : Nat := 65536
  deriving DecidableEq, Repr

/-- Values of the global slots; a slot that was never set has none. -/
abbrev Globals (V : Type) := Array (Option V)

/-- The state of a machine. -/
structure Machine (S V : Type) where
  config : MachineConfig
  constants : Array V
  stack : Array V := #[]
  calls : CallStack V
  globals : Globals V := #[]
  /-- The value most recently dropped by a `pop` instruction. -/
  lastPopped : Option V := none
  /-- The state of the host. -/
  host : S
  /-- The number for the next function or closure. -/
  nextIdentity : Nat := 0

/-- Steps of a machine; a failing step leaves the state it had reached. -/
abbrev MachineM (S V : Type) := ExceptT Fault (StateM (Machine S V))

namespace Machine

variable {S V : Type}

/-- The frames of the active calls, innermost first. -/
abbrev frames (m : Machine S V) : List (Frame V) :=
  m.calls.frames

/-! ### Access to the parts of the state -/

/-- Asks the host, which cannot fail. -/
@[inline]
def ask {α : Type} (question : StateM S α) : MachineM S V α :=
  modifyGet fun m =>
    let (answer, host) := question.run m.host
    (answer, { m with host })

/-- Asks the host, which may fail. -/
@[inline]
def tryAsk {α : Type} (question : ExceptT Fault (StateM S) α) : MachineM S V α := do
  match ← ask question.run with
  | .ok a => return a
  | .error fault => throw fault

/-- Pushes a value. -/
@[inline]
def push (v : V) : MachineM S V Unit := do
  if (← get).stack.size < (← get).config.stackSize then
    modify fun m => { m with stack := m.stack.push v }
  else throw .stackOverflow

/-- Pops a value. -/
@[inline]
def pop : MachineM S V V := do
  match (← get).stack.back? with
  | some v =>
    modify fun m => { m with stack := m.stack.pop }
    return v
  | none => throw .stackUnderflow

/-- Removes the top `count` values and gives them in the order they were pushed. -/
def take (count : Nat) : MachineM S V (List V) := do
  let size := (← get).stack.size
  if count ≤ size then
    let values := ((← get).stack.extract (size - count) size).toList
    modify fun m => { m with stack := m.stack.shrink (size - count) }
    return values
  else throw .stackUnderflow

/-- The running frame. -/
@[inline]
def currentFrame : MachineM S V (Frame V) := do
  match (← get).frames with
  | frame :: _ => return frame
  | [] => throw .noInstruction

/-- Lets the running frame go on at an offset. -/
@[inline]
def setPointer (ip : Nat) : MachineM S V Unit :=
  modify fun m => { m with calls := m.calls.setPointer ip }

/-- Reads the next instruction and moves behind it. -/
@[inline]
def fetch : MachineM S V Instruction := do
  let frame ← currentFrame
  match Instruction.decodeAt frame.code.bytes frame.ip with
  | some (.ok i) =>
    setPointer (frame.ip + i.opcode.width)
    return i
  | some (.error (.unknownOpcode byte)) => throw (.unknownOpcode byte)
  | some (.error (.truncatedOperands opcode)) => throw (.truncatedOperands opcode)
  | none => throw .noInstruction

/-- Jumps to an offset of the running code, at most to its end. -/
def jump (target : Nat) : MachineM S V Unit := do
  let frame ← currentFrame
  if target ≤ frame.code.bytes.size then setPointer target else throw (.jumpOutOfRange target)

/-- The place of a local on the stack. -/
@[inline]
def localSlot (index : Nat) : MachineM S V Nat := do
  let slot := (← currentFrame).base + index
  if slot < (← get).stack.size then return slot else throw (.noLocal index)

/-- Pushes a local. -/
def getLocal (index : Nat) : MachineM S V Unit := do
  let slot ← localSlot index
  match (← get).stack[slot]? with
  | some v => push v
  | none => throw (.noLocal index)

/-- Pops a value into a local. -/
def setLocal (index : Nat) : MachineM S V Unit := do
  let v ← pop
  let slot ← localSlot index
  modify fun m => { m with stack := m.stack.setIfInBounds slot v }

/-- Pushes a global, null if it was never set. -/
def getGlobal (host : Host S V) (index : Nat) : MachineM S V Unit := do
  match (← get).globals[index]? with
  | some (some v) => push v
  | _ => push (← ask host.null)

/-- Global slots with one of them set; slots up to it are added where they are missing. -/
def storeGlobal (globals : Globals V) (index : Nat) (v : V) : Globals V :=
  if index < globals.size then globals.setIfInBounds index (some v)
  else (globals ++ Array.replicate (index - globals.size) none).push (some v)

/-- Pops a value into a global. -/
def setGlobal (index : Nat) : MachineM S V Unit := do
  let v ← pop
  if index < (← get).config.globalsSize then
    modify fun m => { m with globals := storeGlobal m.globals index v }
  else throw (.globalOutOfRange index)

/-- A number that no function or closure has yet. -/
def freshIdentity : MachineM S V Nat :=
  modifyGet fun m => (m.nextIdentity, { m with nextIdentity := m.nextIdentity + 1 })

/-! ### Calls -/

/-- Pushes `count` times null. -/
def pushNulls (host : Host S V) : (count : Nat) → MachineM S V Unit
  | 0 => return
  | count + 1 => do
    push (← ask host.null)
    pushNulls host count

/-- Calls a closure of which the arguments are on the stack; its other locals start as null. -/
def callClosure (host : Host S V) (closure : Closure V) (argc : Nat) : MachineM S V Unit := do
  let f := closure.code
  if argc ≠ f.params then throw (.wrongArgumentCount f.params argc)
  let m ← get
  if m.config.maxFrames ≤ m.calls.depth then throw (.frameOverflow m.config.maxFrames)
  let base := m.stack.size - argc
  pushNulls host (f.locals - argc)
  modify fun m => { m with calls := m.calls.push { closure, ip := 0, base } }

/-- Calls the value below `argc` arguments. -/
def call (host : Host S V) (argc : Nat) : MachineM S V Unit := do
  let size := (← get).stack.size
  if size < argc + 1 then throw .stackUnderflow
  let slot := size - (argc + 1)
  match (← get).stack[slot]? with
  | none => throw .stackUnderflow
  | some callee =>
    match ← ask (host.closure? callee) with
    | some closure => callClosure host closure argc
    | none =>
      let args := ((← get).stack.extract (slot + 1) size).toList
      match ← tryAsk (host.callBuiltin? callee args) with
      | some v =>
        modify fun m => { m with stack := m.stack.shrink slot }
        push v
      | none => throw (.notCallable (host.typeName callee))

/-- Leaves the running frame with a value: the result of the run if it was the main one, else the
value of the call. -/
def leave (v : V) : MachineM S V (Option V) := do
  match (← get).frames with
  | [] => throw .noInstruction
  | [_] =>
    modify fun m => { m with calls := m.calls.pop }
    return some v
  | frame :: _ =>
    modify fun m => { m with calls := m.calls.pop, stack := m.stack.shrink (frame.base - 1) }
    push v
    return none

/-- Pushes a closure made of a function constant and captured values. -/
def makeClosure (host : Host S V) (index count : Nat) : MachineM S V Unit := do
  match (← get).constants[index]? with
  | none => throw (.notAFunction index)
  | some constant =>
    match ← ask (host.function? constant) with
    | none => throw (.notAFunction index)
    | some code =>
      let free ← take count
      let identity ← freshIdentity
      push (← ask (host.ofClosure { identity, code, free }))

/-! ### Instructions -/

/-- Keys and values that alternate, as pairs. -/
def pairUp : List V → List (V × V)
  | key :: value :: rest => (key, value) :: pairUp rest
  | _ => []

/-- Executes an instruction. The result is the value of a `return` of the main code. -/
def execute (host : Host S V) (i : Instruction) : MachineM S V (Option V) := do
  let operand (n : Nat) : Nat := i.operands.getD n 0
  match i.opcode with
  | .constant =>
    match (← get).constants[operand 0]? with
    | some v => push v
    | none => throw (.noConstant (operand 0))
    return none
  | .pop =>
    let v ← pop
    modify fun m => { m with lastPopped := some v }
    return none
  | .add | .sub | .mul | .div | .mod | .equal | .notEqual | .greaterThan | .greaterEqual =>
    let right ← pop
    let left ← pop
    push (← tryAsk (host.binary i.opcode left right))
    return none
  | .minus | .bang =>
    let v ← pop
    push (← tryAsk (host.unary i.opcode v))
    return none
  | .true =>
    push (← ask (host.boolean true))
    return none
  | .false =>
    push (← ask (host.boolean false))
    return none
  | .null =>
    push (← ask host.null)
    return none
  | .jump =>
    jump (operand 0)
    return none
  | .jumpNotTruthy =>
    let condition ← pop
    if ← ask (host.isTruthy condition) then return none
    jump (operand 0)
    return none
  | .getGlobal =>
    getGlobal host (operand 0)
    return none
  | .setGlobal | .assignGlobal =>
    setGlobal (operand 0)
    return none
  | .getLocal =>
    getLocal (operand 0)
    return none
  | .setLocal | .assignLocal =>
    setLocal (operand 0)
    return none
  | .getBuiltin =>
    push (← tryAsk (host.builtin (operand 0)))
    return none
  | .getFree =>
    match (← currentFrame).closure.free[operand 0]? with
    | some v => push v
    | none => throw (.noCapture (operand 0))
    return none
  | .array =>
    let items ← take (operand 0)
    push (← ask (host.array items))
    return none
  | .hash =>
    if operand 0 % 2 ≠ 0 then throw (.oddHash (operand 0))
    let flat ← take (operand 0)
    push (← tryAsk (host.hash (pairUp flat)))
    return none
  | .index =>
    let key ← pop
    let container ← pop
    push (← tryAsk (host.index container key))
    return none
  | .call =>
    call host (operand 0)
    return none
  | .returnValue => leave (← pop)
  | .ret => leave (← ask host.null)
  | .closure =>
    makeClosure host (operand 0) (operand 1)
    return none
  | .currentClosure =>
    push (← ask (host.ofClosure (← currentFrame).closure))
    return none

/-- Executes the next instruction. -/
def step (host : Host S V) : MachineM S V (Option V) := do
  execute host (← fetch)

/-! ### Runs -/

/-- How a run ends. -/
inductive Outcome (V : Type) where
  | value (v : V)
  | fault (fault : Fault)
  | outOfFuel

/-- The result of a run that reaches the end of the main code: the value dropped last, or null. -/
def finish (host : Host S V) (m : Machine S V) : Outcome V × Machine S V :=
  match m.lastPopped with
  | some v => (.value v, m)
  | none =>
    let (v, state) := host.null.run m.host
    (.value v, { m with host := state })

/-- Executes instructions until the main code ends or returns, or a fault arises. -/
def run (host : Host S V) : (fuel : Nat) → Machine S V → Outcome V × Machine S V
  | 0, m => (.outOfFuel, m)
  | fuel + 1, m =>
    match m.frames with
    | [] => finish host m
    | frame :: callers =>
      if frame.isFinished then
        if callers.isEmpty then finish host m else (.fault .missingReturn, m)
      else
        match (step host).run.run m with
        | (.ok none, m) => run host fuel m
        | (.ok (some v), m) => (.value v, m)
        | (.error fault, m) => (.fault fault, m)

/-- Values for the constants of a program, after those in `found`. -/
def loadConstants (host : Host S V) :
    List Constant → (identity : Nat) → Array V → S → Array V × S
  | [], _, found, state => (found, state)
  | c :: rest, identity, found, state =>
    let (v, state) := (host.constant identity c).run state
    loadConstants host rest (identity + 1) (found.push v) state

/-- A machine about to run a program. Functions get numbers from `identity` on. -/
def start (host : Host S V) (config : MachineConfig) (p : Program) (globals : Globals V)
    (state : S) (identity : Nat) : Machine S V :=
  let (constants, state) := loadConstants host p.constants.toList identity #[] state
  let identity := identity + p.constants.size
  let main : Closure V := ⟨identity, { code := p.code }, []⟩
  { config, constants, calls := { frames := [{ closure := main }] }, globals, host := state
    nextIdentity := identity + 1 }

/-! ### Places of errors -/

/-- The name of a frame in a stack trace; the last of the frames is the main one. -/
def traceEntry (file : String) (frame : Frame V) (isMain : Bool) : TraceEntry :=
  let name := if isMain then "<main>" else frame.closure.code.render
  ⟨name, file, frame.span.start.line, frame.span.start.column⟩

/-- The active calls, innermost first. -/
def trace (file : String) : List (Frame V) → List TraceEntry
  | [] => []
  | frame :: callers => traceEntry file frame callers.isEmpty :: trace file callers

/-- A fault with the place where the machine stands. -/
def locate (m : Machine S V) (fault : Fault) (file source : String) : Diagnostic :=
  let span := match m.frames with
    | frame :: _ => frame.span
    | [] => {}
  let located : Diagnostic :=
    { kind := fault.kind, message := fault.message, span, file, trace := trace file m.frames }
  located.withSource source

end Machine

end Bytescript
