/-
Machines stay within their limits, whatever the code.

Nothing is assumed about the program here. It may be made by hand or read from a file; it may pop
below the locals of a call, jump into the middle of an instruction, or name what does not exist.

Main statement: `Machine.confined`. After any number of steps the stack, the calls and the globals
are within the limits of the machine, every call stands inside its code, and no access of what is
done next is out of range. So code that is no proper code ends in a fault, and in nothing worse.

Design notes: `Machine.step` looks before it takes an item out of an array. `Unguarded` has the same
actions for a machine that takes its arrays to be long enough: an access out of range stops it, and
that is no fault. That no access is out of range then means that the two machines do the same
(`agree_step`).
-/
import Bytescript.Proofs.Invariants

namespace Bytescript

variable {S V α β : Type}

namespace Machine

/-! ### Limits -/

/-- The machine keeps to the limits of `config`; it was given `slots` global slots. -/
structure WithinLimits (config : MachineConfig) (slots : Nat) (m : Machine S V) : Prop where
  limits : m.config = config
  stack : m.stack.size ≤ config.stackSize
  frames : m.frames.length ≤ max 1 config.maxFrames
  globals : m.globals.size ≤ max slots config.globalsSize
  pointers : ∀ frame ∈ m.frames, frame.ip ≤ frame.code.bytes.size

theorem size_storeGlobal (globals : Globals V) (i : Nat) (v : V) :
    (storeGlobal globals i v).size = max globals.size (i + 1) := by
  rw [storeGlobal]
  split
  · rw [Array.size_setIfInBounds]
    omega
  · rw [Array.size_push, Array.size_append, Array.size_replicate]
    omega

section

variable {config : MachineConfig} {slots : Nat} {m : Machine S V}

namespace WithinLimits

theorem goTo (h : WithinLimits config slots m) {frame : Frame V} {callers : List (Frame V)}
    (hframes : m.frames = frame :: callers) {ip : Nat} (hip : ip ≤ frame.code.bytes.size) :
    WithinLimits config slots (m.goTo ip) := by
  have hgoes : (m.goTo ip).frames = { frame with ip } :: callers := by
    rw [frames_goTo, hframes]
    rfl
  refine { h with frames := ?_, pointers := ?_ }
  · rw [frames_goTo, List.length_modifyHead]
    exact h.frames
  · intro frame' hframe'
    rw [hgoes] at hframe'
    rcases List.mem_cons.mp hframe' with rfl | hframe'
    · exact hip
    · exact h.pointers frame' (by rw [hframes]; exact List.mem_cons_of_mem _ hframe')

theorem enter (h : WithinLimits config slots m) {closure : Closure V} {base : Nat}
    (hdepth : m.calls.depth < m.config.maxFrames) :
    WithinLimits config slots { m with calls := m.calls.push ⟨closure, 0, base⟩ } := by
  refine { h with frames := ?_, pointers := ?_ }
  · rw [m.calls.depth_eq, h.limits] at hdepth
    exact Nat.le_trans hdepth (Nat.le_max_right _ _)
  · intro frame hframe
    rcases List.mem_cons.mp hframe with rfl | hframe
    · exact Nat.zero_le _
    · exact h.pointers frame hframe

theorem leave (h : WithinLimits config slots m) :
    WithinLimits config slots { m with calls := m.calls.pop } := by
  refine { h with frames := ?_, pointers := ?_ }
  · refine Nat.le_trans ?_ h.frames
    show m.frames.tail.length ≤ _
    rw [List.length_tail]
    omega
  · exact fun frame hframe => h.pointers frame (List.mem_of_mem_tail hframe)

end WithinLimits

/-- Every change that a machine makes keeps to the limits, with all values and closures. -/
theorem stable_withinLimits (config : MachineConfig) (slots : Nat) :
    Stable (S := S) (V := V) (WithinLimits config slots) (fun _ => True) (fun _ => True) where
  constants _ _ _ := trivial
  values _ _ _ := trivial
  globals _ _ _ := trivial
  closures _ _ _ := trivial
  host h := { h with }
  identity h := { h with }
  lastPopped h _ := { h with }
  pushes h _ hroom := by
    refine { h with stack := ?_ }
    rw [h.limits] at hroom
    rw [Array.size_push]
    exact hroom
  cuts h hcut := { h with stack := Nat.le_trans hcut.length_le h.stack }
  sets h _ := by
    refine { h with stack := ?_ }
    rw [Array.size_setIfInBounds]
    exact h.stack
  stores {m v i} h _ hi := by
    refine { h with globals := ?_ }
    have hglobals := h.globals
    rw [h.limits] at hi
    show (storeGlobal m.globals i v).size ≤ _
    rw [size_storeGlobal]
    omega
  moves h hframes hip := h.goTo hframes hip
  enters h _ hdepth _ _ := h.enter hdepth
  leaves h := h.leave

/-- The machine after a number of steps. A step that fails does not end this: the next one begins
where it stopped. -/
def afterSteps (host : Host S V) : (steps : Nat) → Machine S V → Machine S V
  | 0, m => m
  | steps + 1, m => afterSteps host steps (exec (step host) m).2

theorem Stable.of_afterSteps {I : Machine S V → Prop} {P : V → Prop} {C : Closure V → Prop}
    {host : Host S V} (hI : Stable I P C) (hhost : host.Keeps P C) (hm : I m) (steps : Nat) :
    I (afterSteps host steps m) := by
  induction steps generalizing m with
  | zero => exact hm
  | succ steps ih => exact ih (hI.keeps_step hhost m hm).1

theorem WithinLimits.afterSteps (host : Host S V) (steps : Nat) (h : WithinLimits config slots m) :
    WithinLimits config slots (afterSteps host steps m) :=
  (stable_withinLimits config slots).of_afterSteps host.keeps_true h steps

end

/-! ### Accesses without a look -/

/-- Why an unguarded machine stops early. -/
inductive Stop where
  | fault (fault : Fault)
  /-- An item was taken from outside an array, or a number was taken from a smaller one. -/
  | outOfRange
  deriving DecidableEq, Repr

/-- Steps of an unguarded machine. -/
abbrev UnguardedM (S V : Type) := ExceptT Stop (StateM (Machine S V))

namespace Unguarded

/-- An action without an access of its own. -/
def guarded (action : MachineM S V α) : UnguardedM S V α :=
  ExceptT.mk fun m => ((exec action m).1.mapError Stop.fault, (exec action m).2)

/-- The item of an array at an index. -/
def item (xs : Array α) (i : Nat) : UnguardedM S V α :=
  match xs[i]? with
  | some a => return a
  | none => throw .outOfRange

/-- The items of an array from an index on. -/
def itemsFrom (xs : Array α) (start : Nat) : UnguardedM S V (Array α) :=
  if start ≤ xs.size then return xs.extract start xs.size else throw .outOfRange

/-- An array with another item at an index. -/
def replaceItem (xs : Array α) (i : Nat) (a : α) : UnguardedM S V (Array α) :=
  if i < xs.size then return xs.setIfInBounds i a else throw .outOfRange

/-- The difference of two numbers. -/
def minus (a b : Nat) : UnguardedM S V Nat :=
  if b ≤ a then return a - b else throw .outOfRange

/-- Reads the next instruction and moves behind it. -/
def fetch : UnguardedM S V Instruction := do
  let frame ← guarded currentFrame
  match frame.code.bytes[frame.ip]? with
  | none => throw (.fault .noInstruction)
  | some byte =>
    match Opcode.ofByte? byte with
    | none => throw (.fault (.unknownOpcode byte))
    | some opcode =>
      let behind ← itemsFrom frame.code.bytes (frame.ip + 1)
      match Instruction.operandsAt? behind opcode.operandWidths 0 with
      | none => throw (.fault (.truncatedOperands opcode))
      | some operands =>
        guarded (setPointer (frame.ip + opcode.width))
        return ⟨opcode, operands⟩

/-- Pushes a local. -/
def getLocal (index : Nat) : UnguardedM S V Unit := do
  let slot ← guarded (localSlot index)
  let v ← item (← get).stack slot
  guarded (push v)

/-- Pops a value into a local. -/
def setLocal (index : Nat) : UnguardedM S V Unit := do
  let v ← guarded pop
  let slot ← guarded (localSlot index)
  let stack ← replaceItem (← get).stack slot v
  modify fun m => { m with stack }

/-- Global slots with enough of them for an index. -/
def withSlot (globals : Globals V) (index : Nat) : Globals V :=
  if index < globals.size then globals
  else globals ++ Array.replicate (index + 1 - globals.size) none

/-- Pops a value into a global. -/
def setGlobal (index : Nat) : UnguardedM S V Unit := do
  let v ← guarded pop
  if index < (← get).config.globalsSize then
    let globals ← replaceItem (withSlot (← get).globals index) index (some v)
    modify fun m => { m with globals }
  else throw (.fault (.globalOutOfRange index))

/-- Calls a closure of which the arguments are on the stack. -/
def callClosure (host : Host S V) (closure : Closure V) (argc : Nat) : UnguardedM S V Unit := do
  let f := closure.code
  if argc ≠ f.params then throw (.fault (.wrongArgumentCount f.params argc))
  let m ← get
  if m.config.maxFrames ≤ m.calls.depth then throw (.fault (.frameOverflow m.config.maxFrames))
  let base ← minus m.stack.size argc
  guarded (pushNulls host (f.locals - argc))
  modify fun m => { m with calls := m.calls.push { closure, ip := 0, base } }

/-- Calls the value below `argc` arguments. -/
def call (host : Host S V) (argc : Nat) : UnguardedM S V Unit := do
  let size := (← get).stack.size
  if size < argc + 1 then throw (.fault .stackUnderflow)
  let slot := size - (argc + 1)
  let callee ← item (← get).stack slot
  match ← guarded (ask (host.closure? callee)) with
  | some closure => callClosure host closure argc
  | none =>
    let args ← itemsFrom (← get).stack (slot + 1)
    match ← guarded (tryAsk (host.callBuiltin? callee args.toList)) with
    | some v =>
      modify fun m => { m with stack := m.stack.shrink slot }
      guarded (push v)
    | none => throw (.fault (.notCallable (host.typeName callee)))

/-- Executes an instruction. -/
def execute (host : Host S V) (i : Instruction) : UnguardedM S V (Option V) := do
  let operand (n : Nat) : Nat := i.operands.getD n 0
  match i.opcode with
  | .getLocal =>
    getLocal (operand 0)
    return none
  | .setLocal | .assignLocal =>
    setLocal (operand 0)
    return none
  | .setGlobal | .assignGlobal =>
    setGlobal (operand 0)
    return none
  | .call =>
    call host (operand 0)
    return none
  | _ => guarded (Machine.execute host i)

/-- Executes the next instruction. -/
def step (host : Host S V) : UnguardedM S V (Option V) := do
  execute host (← fetch)

/-- Executes instructions as `Machine.run` does. There is no outcome if an access is out of
range. -/
def run (host : Host S V) : (fuel : Nat) → Machine S V → Option (Outcome V) × Machine S V
  | 0, m => (some .outOfFuel, m)
  | fuel + 1, m =>
    match m.frames with
    | [] => ((finish host m).1, (finish host m).2)
    | frame :: callers =>
      if frame.isFinished then
        if callers.isEmpty then ((finish host m).1, (finish host m).2)
        else (some (.fault .missingReturn), m)
      else
        match (step host).run.run m with
        | (.ok none, m) => run host fuel m
        | (.ok (some v), m) => (some (.value v), m)
        | (.error (.fault fault), m) => (some (.fault fault), m)
        | (.error .outOfRange, m) => (none, m)

/-! ### Accesses are in range -/

/-- The two actions do the same in the machine `m`. In particular, the first one makes no access out
of range. -/
def Agree (m : Machine S V) (x : UnguardedM S V α) (y : MachineM S V α) : Prop :=
  x.run.run m = ((exec y m).1.mapError Stop.fault, (exec y m).2)

section

variable {m : Machine S V} {host : Host S V}

/-- Where the guarded action looks before an access, its result says that the access is in range. -/
protected theorem Agree.bind {x : UnguardedM S V α} {y : MachineM S V α}
    {f : α → UnguardedM S V β} {g : α → MachineM S V β} (h : Agree m x y)
    (hf : ∀ a m', exec y m = (.ok a, m') → Agree m' (f a) (g a)) :
    Agree m (x >>= f) (y >>= g) := by
  rw [Agree] at h ⊢
  rw [ExceptT.run_bind, StateT.run_bind, h, exec_bind]
  generalize hresult : exec y m = result at hf ⊢
  rcases result with ⟨fault | a, m'⟩
  · rfl
  · exact hf a m' rfl

theorem agree_guarded (y : MachineM S V α) : Agree m (guarded y) y := rfl

theorem agree_get {f : Machine S V → UnguardedM S V α} {g : Machine S V → MachineM S V α}
    (h : Agree m (f m) (g m)) : Agree m (get >>= f) (get >>= g) := by
  refine Agree.bind (x := get) rfl fun a m' heq => ?_
  cases heq
  exact h

/-- What is read behind an offset does not change when the code before it is left out. -/
theorem operandsAt?_extract (bytes : Array UInt8) (start : Nat) (widths : List Nat) (k : Nat) :
    Instruction.operandsAt? (bytes.extract start bytes.size) widths k =
      Instruction.operandsAt? bytes widths (start + k) := by
  have hitem : ∀ k, (bytes.extract start bytes.size)[k]? = bytes[start + k]? := by
    intro k
    rw [Array.getElem?_extract, Nat.min_self]
    split
    · rfl
    · exact (Array.getElem?_eq_none (by omega)).symm
  have hnumber : ∀ k width, bigEndianAt? (bytes.extract start bytes.size) k width =
      bigEndianAt? bytes (start + k) width := by
    intro k width
    induction width with
    | zero => rfl
    | succ width ih => rw [bigEndianAt?, bigEndianAt?, ih, hitem, Nat.add_assoc]
  induction widths generalizing k with
  | nil => rfl
  | cons width widths ih =>
    rw [Instruction.operandsAt?, Instruction.operandsAt?, hnumber, ih, Nat.add_assoc]

theorem agree_fetch : Agree m fetch Machine.fetch := by
  refine (agree_guarded currentFrame).bind fun frame m' _ => ?_
  rw [Instruction.decodeAt]
  cases hbyte : frame.code.bytes[frame.ip]? with
  | none => rfl
  | some byte =>
    have hlt : frame.ip + 1 ≤ frame.code.bytes.size := (Array.getElem?_eq_some_iff.mp hbyte).1
    rw [Option.map_some, Instruction.decodeFrom]
    dsimp only
    cases Opcode.ofByte? byte with
    | none => rfl
    | some opcode =>
      dsimp only
      rw [itemsFrom, if_pos hlt, pure_bind, operandsAt?_extract, Nat.add_zero]
      cases Instruction.operandsAt? frame.code.bytes opcode.operandWidths (frame.ip + 1) <;> rfl

/-- A local that is found is on the stack. -/
theorem localSlot_ok {i slot : Nat} {m' : Machine S V}
    (h : exec (localSlot i) m = (.ok slot, m')) : m' = m ∧ slot < m.stack.size := by
  rw [localSlot, exec_bind] at h
  cases hframes : m.frames with
  | nil =>
    rw [exec_currentFrame_none hframes] at h
    cases h
  | cons frame callers =>
    rw [exec_currentFrame hframes] at h
    dsimp only at h
    rw [exec_bind, exec_get] at h
    dsimp only at h
    split at h
    · next hlt =>
      cases h
      exact ⟨rfl, hlt⟩
    · cases h

theorem agree_getLocal (i : Nat) : Agree m (getLocal i) (Machine.getLocal i) := by
  refine (agree_guarded (localSlot i)).bind fun slot m' hslot => agree_get ?_
  obtain ⟨rfl, hlt⟩ := localSlot_ok hslot
  have hitem : m'.stack[slot]? = some m'.stack[slot] := Array.getElem?_eq_getElem hlt
  rw [item, hitem]
  exact agree_guarded (push m'.stack[slot])

theorem agree_setLocal (i : Nat) : Agree m (setLocal i) (Machine.setLocal i) := by
  refine (agree_guarded pop).bind fun v m₁ _ => ?_
  refine (agree_guarded (localSlot i)).bind fun slot m' hslot => ?_
  obtain ⟨rfl, hlt⟩ := localSlot_ok hslot
  show Agree m' (replaceItem m'.stack slot v >>= fun stack => modify fun m => { m with stack }) _
  rw [replaceItem, if_pos hlt, pure_bind]
  rfl

/-- After the missing slots are added, there is one for the index. -/
theorem replaceItem_withSlot (globals : Globals V) (i : Nat) (v : V) :
    replaceItem (S := S) (V := V) (withSlot globals i) i (some v) =
      pure (storeGlobal globals i v) := by
  rw [replaceItem, withSlot, storeGlobal]
  by_cases hi : i < globals.size
  · rw [if_pos hi, if_pos hi, if_pos hi]
  · have hroom : i < (globals ++ Array.replicate (i + 1 - globals.size) none).size := by
      rw [Array.size_append, Array.size_replicate]
      omega
    have hlast : (globals ++ Array.replicate (i + 1 - globals.size) none).setIfInBounds i (some v) =
        (globals ++ Array.replicate (i - globals.size) none).push (some v) := by
      apply Array.ext_getElem?
      intro k
      rw [Array.getElem?_setIfInBounds, Array.getElem?_push]
      grind
    rw [if_neg hi, if_neg hi, if_pos hroom, hlast]

theorem agree_setGlobal (i : Nat) : Agree m (setGlobal i) (Machine.setGlobal i) := by
  refine (agree_guarded pop).bind fun v m' _ => agree_get ?_
  split
  · refine (?_ : Agree m' (replaceItem (withSlot m'.globals i) i (some v) >>= _) _)
    rw [replaceItem_withSlot, pure_bind]
    rfl
  · rfl

theorem agree_callClosure (closure : Closure V) {argc : Nat} (hargc : argc ≤ m.stack.size) :
    Agree m (callClosure host closure argc) (Machine.callClosure host closure argc) := by
  rw [callClosure, Machine.callClosure]
  split
  · rfl
  · refine agree_get ?_
    split
    · rfl
    · rw [minus, if_pos hargc]
      exact (agree_guarded (pushNulls host _)).bind fun _ _ _ => rfl

theorem agree_call (argc : Nat) : Agree m (call host argc) (Machine.call host argc) := by
  refine agree_get ?_
  dsimp only
  split
  · rfl
  · next hsize =>
    refine agree_get ?_
    -- the check of the size covers the callee and all arguments
    have hslot : m.stack.size - (argc + 1) < m.stack.size := by omega
    rw [item, Array.getElem?_eq_getElem hslot, pure_bind]
    refine (agree_guarded (ask (host.closure? _))).bind fun closure? m' hask => ?_
    rw [exec_ask] at hask
    obtain ⟨-, rfl⟩ := Prod.mk.inj hask
    cases closure? with
    | some closure => exact agree_callClosure closure (by show _ ≤ m.stack.size; omega)
    | none =>
      refine agree_get ?_
      have hargs : m.stack.size - (argc + 1) + 1 ≤ m.stack.size := by omega
      dsimp only
      rw [itemsFrom, if_pos hargs, pure_bind]
      refine (agree_guarded (tryAsk (host.callBuiltin? _ _))).bind fun v? m' _ => ?_
      cases v? with
      | none => rfl
      | some v => exact Agree.bind (x := modify _) rfl fun _ _ _ => agree_guarded (push v)

theorem agree_execute (i : Instruction) :
    Agree m (execute host i) (Machine.execute host i) := by
  obtain ⟨op, operands⟩ := i
  cases op
  case getLocal => exact (agree_getLocal _).bind fun _ _ _ => rfl
  case setLocal => exact (agree_setLocal _).bind fun _ _ _ => rfl
  case assignLocal => exact (agree_setLocal _).bind fun _ _ _ => rfl
  case setGlobal => exact (agree_setGlobal _).bind fun _ _ _ => rfl
  case assignGlobal => exact (agree_setGlobal _).bind fun _ _ _ => rfl
  case call => exact (agree_call _).bind fun _ _ _ => rfl
  all_goals exact agree_guarded _

theorem agree_step : Agree m (step host) (Machine.step host) :=
  agree_fetch.bind fun i _ _ => agree_execute i

end

/-- Without looking, a run has the same outcome. -/
theorem run_eq (host : Host S V) (fuel : Nat) (m : Machine S V) :
    run host fuel m = (some (Machine.run host fuel m).1, (Machine.run host fuel m).2) := by
  induction fuel generalizing m with
  | zero => rfl
  | succ fuel ih =>
    rw [run, Machine.run]
    cases m.frames with
    | nil => rfl
    | cons frame callers =>
      dsimp only
      split
      · split <;> rfl
      · have hstep : Agree m (step host) (Machine.step host) := agree_step
        rw [Agree, exec] at hstep
        rw [hstep]
        rcases (Machine.step host).run.run m with ⟨fault | _ | v, m'⟩
        · rfl
        · exact ih m'
        · rfl

end Unguarded

/-- Machines stay within their limits, whatever program they run and on whatever host. After any
number of steps, failed ones included, the stack, the calls and the globals have no more items than
they may have, every call stands inside its code, and the accesses of the next step are all in
range. A run that does not look before its accesses ends like one that does: in a value or a fault,
unless it runs out of fuel. -/
theorem confined (host : Host S V) (config : MachineConfig) (p : Program) (globals : Globals V)
    (state : S) (identity steps : Nat) :
    let m := afterSteps host steps (start host config p globals state identity)
    m.WithinLimits config globals.size ∧
      Unguarded.Agree m (Unguarded.step host) (step host) ∧
      ∀ fuel, (run host fuel m).2.WithinLimits config globals.size ∧
        Unguarded.run host fuel m = (some (run host fuel m).1, (run host fuel m).2) := by
  have hstart : (start host config p globals state identity).WithinLimits config globals.size :=
    { limits := rfl
      stack := Nat.zero_le _
      frames := Nat.le_max_left _ _
      globals := Nat.le_max_left _ _
      pointers := by
        intro frame hframe
        rw [List.mem_singleton.mp hframe]
        exact Nat.zero_le _ }
  have hm := hstart.afterSteps host steps
  refine ⟨hm, Unguarded.agree_step, fun fuel => ⟨?_, Unguarded.run_eq host fuel _⟩⟩
  exact (stable_withinLimits config globals.size).of_run host.keeps_true hm fuel

end Machine

end Bytescript
