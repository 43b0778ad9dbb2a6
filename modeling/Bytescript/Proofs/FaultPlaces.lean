/-
Where faults are reported.

A fault is reported with the span of the byte before the place where the running call goes on. So
it matters how far that place has moved when the fault arises.

* `Machine.calls_of_execute` — an instruction that fails leaves the calls as they were after it was
  fetched, whatever the code. For a return this rests on `Machine.Grounded`: there is room for its
  value, since the closure that was called took as much;
* `Machine.failure_of_turn` — what a machine looks like after a turn that failed.

Main statement: `fault_reported`. An instruction that fails is reported with the span of its last
byte. Where no instruction can be read, nothing was moved, and the span is that of the byte before
(`strayByte_misreported`).
-/
import Bytescript.Proofs.Balance
import Bytescript.Proofs.Confinement
import Bytescript.Proofs.Sessions

namespace Bytescript

variable {S V α β : Type}

namespace Machine

/-! ### Instructions that fail -/

/-- The machine has these calls and limits. -/
def IsAt (calls : CallStack V) (config : MachineConfig) (m : Machine S V) : Prop :=
  m.calls = calls ∧ m.config = config

/-- Within a call the calls are not changed. -/
theorem steady_isAt (calls : CallStack V) (config : MachineConfig) :
    Steady (S := S) (IsAt calls config) (fun _ => True) (fun _ => True) where
  constants _ _ _ := trivial
  values _ _ _ := trivial
  globals _ _ _ := trivial
  closures _ _ _ := trivial
  host h := h
  identity h := h
  lastPopped h _ := h
  pushes h _ _ := h
  cuts h _ := h
  sets h _ := h
  stores h _ _ := h

/-- If the action fails, the calls are those from before. -/
def FailsInPlace (calls : CallStack V) (config : MachineConfig) (action : MachineM S V α) : Prop :=
  ∀ m, IsAt calls config m → ∀ fault m', exec action m = (.error fault, m') → m'.calls = calls

section

variable {calls : CallStack V} {config : MachineConfig}

theorem Keeps.failsInPlace {Q : α → Prop} {action : MachineM S V α}
    (h : Keeps (IsAt calls config) Q action) : FailsInPlace calls config action := by
  intro m hm fault m' hexec
  have hkept := (h m hm).1
  rw [hexec] at hkept
  exact hkept.1

/-- Only the last of several actions may change the calls. -/
theorem FailsInPlace.bind {Q : α → Prop} {x : MachineM S V α} {f : α → MachineM S V β}
    (h : Keeps (IsAt calls config) Q x) (hf : ∀ a, FailsInPlace calls config (f a)) :
    FailsInPlace calls config (x >>= f) := by
  intro m hm fault m' hexec
  obtain ⟨hkept, -⟩ := h m hm
  rw [exec_bind] at hexec
  generalize exec x m = result at hkept hexec
  rcases result with ⟨fault' | a, m₁⟩
  · cases hexec
    exact hkept.1
  · exact hf a m₁ hkept fault m' hexec

/-- What is done last cannot fail. -/
theorem FailsInPlace.done {x : MachineM S V α} (h : FailsInPlace calls config x) (b : β) :
    FailsInPlace calls config (x >>= fun _ => pure b) := by
  intro m hm fault m' hexec
  rw [exec_bind] at hexec
  generalize hx : exec x m = result at hexec
  rcases result with ⟨fault' | a, m₁⟩
  · cases hexec
    exact h m hm fault m' hx
  · cases hexec

theorem failsInPlace_jump (target : Nat) :
    FailsInPlace (S := S) calls config (jump target) := by
  refine .bind (steady_isAt calls config).keeps_currentFrame fun frame m hm fault m' hexec => ?_
  split at hexec
  · cases hexec
  · cases hexec
    exact hm.1

theorem failsInPlace_callClosure (host : Host S V) (closure : Closure V) (argc : Nat) :
    FailsInPlace calls config (callClosure host closure argc) := by
  rw [callClosure]
  split
  · exact Keeps.failsInPlace (Q := fun _ => True) (.throw _)
  · refine .bind .get fun m => ?_
    dsimp only
    split
    · exact Keeps.failsInPlace (Q := fun _ => True) (.throw _)
    · refine .bind ((steady_isAt calls config).keeps_pushNulls host.keeps_true _) ?_
      intro _ m _ fault m' hexec
      cases hexec

theorem failsInPlace_call (host : Host S V) (argc : Nat) :
    FailsInPlace calls config (call host argc) := by
  have hsteady := steady_isAt (S := S) calls config
  refine .bind .get fun m => ?_
  dsimp only
  split
  · exact Keeps.failsInPlace (Q := fun _ => True) (.throw _)
  · refine .bind .get fun m' => ?_
    cases m'.stack[m.stack.size - (argc + 1)]? with
    | none => exact Keeps.failsInPlace (Q := fun _ => True) (.throw _)
    | some callee =>
      refine .bind (hsteady.keeps_ask (Q := fun _ => True) fun _ => trivial) fun closure? => ?_
      cases closure? with
      | some closure => exact failsInPlace_callClosure host closure argc
      | none =>
        exact Keeps.failsInPlace (hsteady.keeps_callBuiltin host.keeps_true trivial _ m.stack.size)

/-- A call that is not the main one can be left, if there is room for a value where its closure
was. -/
theorem failsInPlace_leave (v : V)
    (hroom : ∀ frame caller callers, calls.frames = frame :: caller :: callers →
      frame.base - 1 < config.stackSize) : FailsInPlace (S := S) calls config (leave v) := by
  intro m hm fault m' hexec
  obtain ⟨hcalls, hconfig⟩ := hm
  rw [leave, exec_bind, exec_get] at hexec
  dsimp only at hexec
  rcases hframes : m.frames with _ | ⟨frame, _ | ⟨caller, callers⟩⟩
  · rw [hframes] at hexec
    cases hexec
    exact hcalls
  · rw [hframes] at hexec
    cases hexec
  · rw [hframes] at hexec
    dsimp only at hexec
    -- the value takes the place of the callee, so there is room for it
    have hlt := hroom frame caller callers (by rw [← hcalls]; exact hframes)
    have hsize : (m.stack.shrink (frame.base - 1)).size < m.config.stackSize := by
      rw [Array.size_shrink, hconfig]
      omega
    rw [exec_bind, exec_modify] at hexec
    dsimp only at hexec
    rw [exec_bind, exec_push, if_pos hsize] at hexec
    cases hexec

theorem failsInPlace_execute (host : Host S V) (i : Instruction)
    (hroom : ∀ frame caller callers, calls.frames = frame :: caller :: callers →
      frame.base - 1 < config.stackSize) : FailsInPlace calls config (execute host i) := by
  have hsteady := steady_isAt (S := S) calls config
  cases htransfers : i.opcode.transfers with
  | false => exact (hsteady.keeps_execute host.keeps_true htransfers).failsInPlace
  | true =>
    obtain ⟨op, operands⟩ := i
    cases op with
    | jump => exact (failsInPlace_jump _).done _
    | jumpNotTruthy =>
      refine .bind hsteady.keeps_pop fun v => ?_
      refine .bind (hsteady.keeps_ask (Q := fun _ => True) fun _ => trivial) fun truthy => ?_
      split
      · exact Keeps.failsInPlace (Q := fun _ => True) (.pure trivial)
      · exact (failsInPlace_jump _).done _
    | call => exact (failsInPlace_call host _).done _
    | returnValue => exact .bind hsteady.keeps_pop fun v => failsInPlace_leave v hroom
    | ret =>
      refine .bind (hsteady.keeps_ask (Q := fun _ => True) fun _ => trivial) fun v => ?_
      exact failsInPlace_leave v hroom
    | _ => cases htransfers

end

/-! ### Room for the value of a call -/

/-- Every call stands in its code, and its locals begin on the stack. If there is a call besides the
main one, there is some stack. -/
structure Grounded (m : Machine S V) : Prop where
  stack : m.stack.size ≤ m.config.stackSize
  pointers : ∀ frame ∈ m.frames, frame.ip ≤ frame.code.bytes.size
  bases : ∀ frame ∈ m.frames, frame.base ≤ m.config.stackSize
  called : 1 < m.frames.length → 0 < m.config.stackSize

namespace Grounded

variable {m : Machine S V}

theorem goTo (h : m.Grounded) {frame : Frame V} {callers : List (Frame V)}
    (hframes : m.frames = frame :: callers) {ip : Nat} (hip : ip ≤ frame.code.bytes.size) :
    (m.goTo ip).Grounded := by
  have hgoes : (m.goTo ip).frames = { frame with ip } :: callers := by
    rw [frames_goTo, hframes]
    rfl
  have hmem : ∀ frame' ∈ callers, frame' ∈ m.frames := fun frame' hframe' => by
    rw [hframes]
    exact List.mem_cons_of_mem _ hframe'
  refine { h with pointers := ?_, bases := ?_, called := ?_ }
  · rw [hgoes]
    exact List.forall_mem_cons.mpr ⟨hip, fun frame' hframe' => h.pointers _ (hmem _ hframe')⟩
  · rw [hgoes]
    refine List.forall_mem_cons.mpr ⟨?_, fun frame' hframe' => h.bases _ (hmem _ hframe')⟩
    exact h.bases frame (by simp [hframes])
  · rw [hgoes, List.length_cons, ← List.length_cons (a := frame), ← hframes]
    exact h.called

theorem enter (h : m.Grounded) {closure : Closure V} {base : Nat} (hpos : 0 < base)
    (hle : base ≤ m.stack.size) :
    Grounded { m with calls := m.calls.push ⟨closure, 0, base⟩ } := by
  have hbase : base ≤ m.config.stackSize := Nat.le_trans hle h.stack
  exact { h with
    pointers := List.forall_mem_cons.mpr ⟨Nat.zero_le _, h.pointers⟩
    bases := List.forall_mem_cons.mpr ⟨hbase, h.bases⟩
    called := fun _ => Nat.lt_of_lt_of_le hpos hbase }

theorem leave (h : m.Grounded) : Grounded { m with calls := m.calls.pop } := by
  refine { h with pointers := ?_, bases := ?_, called := fun hlength => h.called ?_ }
  · exact fun frame hframe => h.pointers frame (List.mem_of_mem_tail hframe)
  · exact fun frame hframe => h.bases frame (List.mem_of_mem_tail hframe)
  · replace hlength : 1 < m.frames.tail.length := hlength
    rw [List.length_tail] at hlength
    omega

/-- There is room for the value of every call. -/
theorem room (h : m.Grounded) {frame caller : Frame V} {callers : List (Frame V)}
    (hframes : m.frames = frame :: caller :: callers) : frame.base - 1 < m.config.stackSize := by
  have hbase := h.bases frame (by simp [hframes])
  have hpos := h.called (by simp [hframes])
  omega

end Grounded

theorem stable_grounded :
    Stable (S := S) (V := V) Grounded (fun _ => True) (fun _ => True) where
  constants _ _ _ := trivial
  values _ _ _ := trivial
  globals _ _ _ := trivial
  closures _ _ _ := trivial
  host h := { h with }
  identity h := { h with }
  lastPopped h _ := { h with }
  pushes h _ hroom := by
    refine { h with stack := ?_ }
    rw [Array.size_push]
    exact hroom
  cuts h hcut := { h with stack := Nat.le_trans hcut.length_le h.stack }
  sets h _ := by
    refine { h with stack := ?_ }
    rw [Array.size_setIfInBounds]
    exact h.stack
  stores h _ _ := { h with }
  moves h hframes hip := h.goTo hframes hip
  enters h _ _ hpos hle := h.enter hpos hle
  leaves h := h.leave

theorem grounded_start (host : Host S V) (config : MachineConfig) (p : Program)
    (globals : Globals V) (state : S) (identity : Nat) :
    (start host config p globals state identity).Grounded where
  stack := Nat.zero_le _
  pointers frame hframe := by
    rw [List.mem_singleton.mp hframe]
    exact Nat.zero_le _
  bases frame hframe := by
    rw [List.mem_singleton.mp hframe]
    exact Nat.zero_le _
  called h := absurd h (Nat.lt_irrefl 1)

/-! ### Turns that fail -/

section

variable {host : Host S V} {m m' : Machine S V} {fault : Fault}

/-- An instruction that fails leaves the calls as they were. -/
theorem calls_of_execute {i : Instruction} (hm : m.Grounded)
    (h : exec (execute host i) m = (.error fault, m')) : m'.calls = m.calls :=
  failsInPlace_execute host i (fun _ _ _ hframes => hm.room hframes) m ⟨rfl, rfl⟩ fault m' h

end

end Machine

/-- The fault of a machine that finds no instruction. -/
def Instruction.Fault.raised : Instruction.Fault → Bytescript.Fault
  | unknownOpcode byte => .unknownOpcode byte
  | truncatedOperands opcode => .truncatedOperands opcode

namespace Machine

/-- A turn in `frame`, called by `callers`, fails with a fault and leaves these calls. -/
inductive Failure (frame : Frame V) (callers : List (Frame V)) : Fault → List (Frame V) → Prop where
  /-- An instruction was fetched, and it failed. -/
  | executing {fault : Fault} {i : Instruction} :
      Instruction.decodeAt frame.code.bytes frame.ip = some (.ok i) →
      Failure frame callers fault ({ frame with ip := frame.ip + i.opcode.width } :: callers)
  /-- No instruction could be fetched. -/
  | fetching {e : Instruction.Fault} :
      Instruction.decodeAt frame.code.bytes frame.ip = some (.error e) →
      Failure frame callers e.raised (frame :: callers)
  /-- The code of a function has ended without a return. -/
  | ended : frame.isFinished = true → callers ≠ [] →
      Failure frame callers .missingReturn (frame :: callers)

/-- The fault that an outcome is. -/
def Outcome.fault? : Outcome V → Option Fault
  | .fault cause => some cause
  | .value _ | .outOfFuel => none

theorem Outcome.eq_fault_of_fault? {outcome : Outcome V} {fault : Fault}
    (h : outcome.fault? = some fault) : outcome = .fault fault := by
  cases outcome with
  | fault cause =>
    cases h
    rfl
  | value | outOfFuel => cases h

section

variable {host : Host S V} {m m' : Machine S V} {fault : Fault}

/-- Where the code goes on, only the instruction there can make a fetch fail. -/
theorem failure_of_fetch {frame : Frame V} {callers : List (Frame V)}
    (hframes : m.frames = frame :: callers) (hgoes : ¬ frame.isFinished = true)
    (h : exec fetch m = (.error fault, m')) : Failure frame callers fault m'.frames := by
  rw [fetch, exec_bind, exec_currentFrame hframes] at h
  dsimp only at h
  split at h
  · cases h
  · next byte hdecode =>
    cases h
    rw [hframes]
    exact .fetching hdecode
  · next opcode hdecode =>
    cases h
    rw [hframes]
    exact .fetching hdecode
  · next hdecode =>
    -- there is a byte at the offset, since the code goes on there
    rw [Instruction.decodeAt, Option.map_eq_none_iff, Array.getElem?_eq_none_iff] at hdecode
    exact absurd (decide_eq_true hdecode) hgoes

theorem failure_of_turn (hm : m.Grounded) (h : turn host m = .halt (.fault fault, m')) :
    ∃ frame callers, m.frames = frame :: callers ∧ Failure frame callers fault m'.frames := by
  have hfinish : ∀ fault m', finish host m ≠ (.fault fault, m') := by
    intro fault m' hfinish
    rw [finish] at hfinish
    split at hfinish <;> cases hfinish
  rw [turn] at h
  cases hframes : m.frames with
  | nil =>
    rw [hframes] at h
    injection h with h
    exact absurd h (hfinish _ _)
  | cons frame callers =>
    refine ⟨frame, callers, rfl, ?_⟩
    rw [hframes] at h
    dsimp only at h
    split at h
    · next hended =>
      split at h
      · injection h with h
        exact absurd h (hfinish _ _)
      · next hcallers =>
        cases h
        rw [hframes]
        exact .ended hended fun hnil => hcallers (by rw [hnil]; rfl)
    · next hgoes =>
      rw [step, exec_bind] at h
      split at h
      · next i m₁ hfetch =>
        obtain ⟨frame', callers', hframes', hdecode, rfl⟩ := fetches_of_fetch hfetch
        rw [hframes] at hframes'
        cases hframes'
        rcases hexec : exec (execute host i) (m.goTo (frame.ip + i.opcode.width)) with
          ⟨fault' | _ | w, m₂⟩ <;> rw [hexec] at h <;> cases h
        have hcalls := calls_of_execute
          (hm.goTo hframes (Instruction.le_size_of_decodeAt hdecode)) hexec
        have hkept : m'.frames = { frame with ip := frame.ip + i.opcode.width } :: callers := by
          show m'.calls.frames = _
          rw [hcalls]
          show (m.goTo (frame.ip + i.opcode.width)).frames = _
          rw [frames_goTo, hframes]
          rfl
        rw [hkept]
        exact .executing hdecode
      · next fault' m₁ hfetch =>
        cases h
        exact failure_of_fetch hframes hgoes hfetch

/-- The span of a report is that of the running call. -/
theorem span_locate {frame : Frame V} {callers : List (Frame V)} (h : m.frames = frame :: callers)
    (fault : Fault) (file source : String) : (m.locate fault file source).span = frame.span := by
  rw [locate, h]
  rfl

end

end Machine

/-! ### Recorded spans -/

/-- Every byte has a span. -/
def Code.IsSpanned (code : Code) : Prop :=
  code.spans.size = code.bytes.size

/-- Every byte of the main code and of the functions of the pool has a span. -/
def Program.IsSpanned (p : Program) : Prop :=
  p.code.IsSpanned ∧ ∀ f, .function f ∈ p.constants.toList → f.code.IsSpanned

theorem Code.IsSpanned.getElem?_spans {code : Code} (h : code.IsSpanned) {k : Nat}
    (hk : k < code.bytes.size) : code.spans[k]? = some (code.spanAt k) := by
  have hlt : k < code.spans.size := Nat.lt_of_lt_of_eq hk h.symm
  rw [Code.spanAt, Array.getElem?_eq_getElem hlt, Array.getD_eq_getD_getElem?,
    Array.getElem?_eq_getElem hlt, Option.getD_some]

/-- The span with which a fault is reported that arose at the offset `ip` of the code. -/
inductive Reported (code : Code) (ip : Nat) (span : Span) : Fault → Prop where
  /-- An instruction that fails is reported with the span of its last byte. -/
  | executed {fault : Fault} {i : Instruction} :
      Instruction.decodeAt code.bytes ip = some (.ok i) →
      code.spans[ip + i.opcode.width - 1]? = some span → Reported code ip span fault
  /-- Where no instruction can be read, the span is that of the byte before, if there is one. -/
  | unread {e : Instruction.Fault} :
      Instruction.decodeAt code.bytes ip = some (.error e) →
      code.spans[ip - 1]? = some span → Reported code ip span e.raised
  /-- A function that does not return is reported with the span of its last byte. -/
  | ended : ip = code.bytes.size → span = code.spans.back?.getD {} →
      Reported code ip span .missingReturn

theorem Machine.Failure.reported {frame running : Frame V} {callers callers' : List (Frame V)}
    {fault : Fault} (h : Failure frame callers fault (running :: callers'))
    (hspanned : frame.code.IsSpanned) (hip : frame.ip ≤ frame.code.bytes.size) :
    Reported frame.code frame.ip running.span fault := by
  cases h with
  | @executing _ i hdecode =>
    have hle := Instruction.le_size_of_decodeAt hdecode
    have hpos := Opcode.width_pos i.opcode
    exact .executed hdecode (hspanned.getElem?_spans (by omega))
  | fetching hdecode =>
    have hlt : frame.ip < frame.code.bytes.size := by
      rw [Instruction.decodeAt, Option.map_eq_some_iff] at hdecode
      obtain ⟨byte, hbyte, -⟩ := hdecode
      exact (Array.getElem?_eq_some_iff.mp hbyte).1
    exact .unread hdecode (hspanned.getElem?_spans (by omega))
  | ended hended _ =>
    -- behind the last byte the span of that byte is reported
    have hsize : frame.ip = frame.code.bytes.size :=
      Nat.le_antisymm hip (of_decide_eq_true hended)
    refine .ended hsize ?_
    rw [Frame.span, Code.spanAt, Array.getD_eq_getD_getElem?, Array.back?_eq_getElem?, hsize,
      ← hspanned]

open Machine

/-- The span of a fault, in a run of code of any origin whose bytes all have spans. It may go on where
other runs or steps stopped. An instruction that fails is reported with the span of its last byte.
Where the bytes are no instruction, the fault is reported one byte too early, unless the code begins
there. -/
theorem fault_reported {p : Program} (hp : p.IsSpanned) {globals : Globals Value}
    (hglobals : ∀ v, some v ∈ globals → v.Every fun _ f _ => f.code.IsSpanned)
    (config : MachineConfig) (identity steps fuel : Nat) {fault : Fault}
    {m' : Machine Console Value}
    (hrun : run nativeHost fuel (afterSteps nativeHost steps
      (start nativeHost config p globals {} identity)) = (.fault fault, m'))
    (file source : String) :
    ∃ m frame callers,
      Reaches nativeHost (afterSteps nativeHost steps
        (start nativeHost config p globals {} identity)) m ∧
      turn nativeHost m = .halt (.fault fault, m') ∧ m.frames = frame :: callers ∧
      Reported frame.code frame.ip (m'.locate fault file source).span fault := by
  generalize hfirst : afterSteps nativeHost steps
    (start nativeHost config p globals {} identity) = first at hrun ⊢
  obtain ⟨m, hreaches, hturn⟩ := exists_halt hrun nofun
  -- what is known at the start of the program is known wherever a run gets to
  have hreached : ∀ {I : Machine Console Value → Prop} {P C}, Stable I P C → nativeHost.Keeps P C →
      I (start nativeHost config p globals {} identity) → I m := by
    intro I P C hI hhost hstart
    refine hI.of_reaches hhost ?_ hreaches
    rw [← hfirst]
    exact hI.of_afterSteps hhost hstart steps
  have hgrounded : m.Grounded :=
    hreached stable_grounded nativeHost.keeps_true (grounded_start _ _ _ _ _ _)
  have hholds := hreached (stable_holds _ _ _) (nativeHost_keeps _)
    (holds_start (Q := fun f => f.code.IsSpanned) config identity hp.1 hp.2 hglobals)
  obtain ⟨frame, callers, hframes, hfailure⟩ := failure_of_turn hgrounded hturn
  have hmem : frame ∈ m.frames := by simp [hframes]
  refine ⟨m, frame, callers, hreaches, hturn, hframes, ?_⟩
  cases hframes' : m'.frames with
  | nil =>
    rw [hframes'] at hfailure
    cases hfailure
  | cons running callers' =>
    rw [hframes'] at hfailure
    rw [span_locate hframes']
    exact hfailure.reported (hholds.closures frame hmem).1 (hgrounded.pointers frame hmem)

/-- The line of a text, as a span. -/
def lineSpan (line : Nat) : Span :=
  .single ⟨line, 1, line⟩

/-- The main code calls a function that adds two nulls, with one line for each byte. -/
def nullSum : Program where
  code :=
    { bytes := (Instruction.encode ⟨.closure, [0, 0]⟩ ++ Instruction.encode ⟨.call, [0]⟩).toArray
      spans := Array.ofFn fun i : Fin 6 => lineSpan i }
  constants := #[.function
    { code :=
      { bytes := ([⟨.null, []⟩, ⟨.null, []⟩, ⟨.add, []⟩].flatMap Instruction.encode).toArray
        spans := Array.ofFn fun i : Fin 3 => lineSpan (10 + i) } }]

theorem isSpanned_nullSum : nullSum.IsSpanned := by
  refine ⟨rfl, fun f hf => ?_⟩
  cases List.mem_singleton.mp hf
  rfl

theorem run_nullSum :
    (run nativeHost 6 (start nativeHost {} nullSum #[] {} 0)).1.fault? =
      some (.unsupportedOperands "+" "Null" "Null") := by
  decide +kernel

theorem nullSum_reported : nullSum.IsSpanned ∧
    ∃ m', run nativeHost 6 (start nativeHost {} nullSum #[] {} 0) =
        (.fault (.unsupportedOperands "+" "Null" "Null"), m') ∧
      ∃ m frame callers, Reaches nativeHost (start nativeHost {} nullSum #[] {} 0) m ∧
        turn nativeHost m = .halt (.fault (.unsupportedOperands "+" "Null" "Null"), m') ∧
        m.frames = frame :: callers ∧
        Reported frame.code frame.ip
          (m'.locate (.unsupportedOperands "+" "Null" "Null") "" "").span
          (.unsupportedOperands "+" "Null" "Null") := by
  have hfault := Outcome.eq_fault_of_fault? run_nullSum
  generalize hrun : run nativeHost 6 (start nativeHost {} nullSum #[] {} 0) = result at hfault ⊢
  obtain ⟨outcome, m'⟩ := result
  cases hfault
  refine ⟨isSpanned_nullSum, m', rfl, ?_⟩
  exact fault_reported isSpanned_nullSum (fun v hv => by simp at hv) {} 0 0 6 hrun "" ""

/-- A null, and a byte that is no opcode, on different lines. -/
def strayByte : Program where
  code :=
    { bytes := (Instruction.encode ⟨.null, []⟩ ++ [255]).toArray
      spans := #[lineSpan 1, lineSpan 2] }

/-- The byte that is no opcode is on the second line, and the fault is reported on the first. -/
theorem strayByte_misreported : strayByte.IsSpanned ∧
    ∃ m frame, Reaches nativeHost (start nativeHost {} strayByte #[] {} 0) m ∧
      m.frames = [frame] ∧ frame.ip = 1 ∧ frame.code = strayByte.code ∧
      turn nativeHost m = .halt (.fault (.unknownOpcode 255), m) ∧
      strayByte.code.spans[1]? = some (lineSpan 2) ∧
      (m.locate (.unknownOpcode 255) "" "").span = lineSpan 1 ∧ lineSpan 1 ≠ lineSpan 2 := by
  have hturn : ∃ m, turn nativeHost (start nativeHost {} strayByte #[] {} 0) = .next m ∧
      turn nativeHost m = .halt (.fault (.unknownOpcode 255), m) ∧
      m.frames = [⟨strayByte.main 0, 1, 0⟩] := ⟨_, rfl, rfl, rfl⟩
  obtain ⟨m, hfirst, hhalt, hframes⟩ := hturn
  refine ⟨⟨rfl, fun f hf => by cases hf⟩, m, _, .single hfirst, hframes, rfl, rfl, hhalt, rfl, ?_,
    by decide⟩
  rw [span_locate hframes]
  rfl

end Bytescript
