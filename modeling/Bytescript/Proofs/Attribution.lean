/-
Which parts of a source text faults are attributed to.

Every instruction of a compiled program was written for one piece of the tree, and has the span of
that piece: `Execution.CompiledFrom`. A call that has called another one goes on behind its call
instruction, so the span of the byte before that place is the span of the call that is pending
there: `Execution.Pending`.

* `Execution.exists_pending` — in a run every call but the innermost one has a call pending;
* `Execution.exists_fetched` — in a run every fault is that of an instruction.

Main statement: `faults_attributed`. The report of a fault has the span of the instruction that
failed, and its trace has one entry for each active call, with the place of what it is executing.
-/
import Bytescript.Proofs.Bindings
import Bytescript.Proofs.FaultPlaces

namespace Bytescript

/-! ### Traces -/

/-- The entry gives the place where the span starts. -/
def TraceEntry.PointsTo (entry : TraceEntry) (span : Span) : Prop :=
  entry.line = span.start.line ∧ entry.column = span.start.column

namespace Machine

variable {V : Type}

theorem length_trace (file : String) (frames : List (Frame V)) :
    (trace file frames).length = frames.length := by
  induction frames with
  | nil => rfl
  | cons frame callers ih => rw [trace, List.length_cons, ih, List.length_cons]

theorem getElem?_trace (file : String) (inner outer : List (Frame V)) (frame : Frame V) :
    (trace file (inner ++ frame :: outer))[inner.length]? =
      some (traceEntry file frame outer.isEmpty) := by
  induction inner with
  | nil => rfl
  | cons g rest ih =>
    rw [List.cons_append, trace, List.length_cons, List.getElem?_cons_succ, ih]

end Machine

/-- Only calls are compiled to call instructions. -/
theorem Compile.Piece.eq_call {t : Piece} (h : Opcode.call ∈ t.opcodes) :
    ∃ callee args span, t = .expr (.call callee args span) := by
  have hload : Opcode.call ∉ loadOpcodes := by decide
  cases t with
  | program => simp [opcodes] at h
  | block purpose b => cases purpose <;> simp [opcodes] at h
  | alternative => simp [opcodes] at h
  | stmt s =>
    cases s with
    | expression | declare | assign => simp [opcodes] at h
    | ret value? => cases value? <;> simp [opcodes] at h
  | expr e =>
    cases e with
    | call callee args span => exact ⟨callee, args, span, rfl⟩
    | identifier => exact absurd h hload
    | function =>
      rcases List.mem_cons.mp h with hop | h
      · cases hop
      · exact absurd h hload
    | boolean value => cases value <;> simp [opcodes] at h
    | unary op => cases op <;> simp [opcodes, unaryOpcode] at h
    | binary op => cases op <;> simp [opcodes, binaryOpcode] at h
    | integer | float | string | null | conditional | array | hash | index => simp [opcodes] at h

open Compile Machine

/-- Only a call instruction adds a call. -/
theorem Machine.Effect.of_longer {m m' : Machine Console Value} {frame : Frame Value}
    {pre region : List Value} {i : Instruction} (h : Effect m frame pre region i m')
    (hlonger : m.frames.length < m'.frames.length) :
    i.opcode = .call ∧ ∃ callee, m'.frames = callee :: m.frames := by
  cases h with
  | enters => exact ⟨rfl, _, rfl⟩
  | gives | drops | setsGlobal | setsLocal => exact absurd hlonger (Nat.lt_irrefl _)
  | jumps =>
    rw [frames_goTo, List.length_modifyHead] at hlonger
    exact absurd hlonger (Nat.lt_irrefl _)
  | leaves =>
    replace hlonger : m.frames.length < m.frames.tail.length := hlonger
    rw [List.length_tail] at hlonger
    omega

namespace Execution

/-- The call is before the instruction `i`, which is the one at the index `k` of the code of `w`.
The compiler wrote it for the piece of `s` itself, and not for one of its parts. -/
structure Written (E : Execution) (o : Option Nat) (w s : Site) (k : Nat) (frame : Frame Value)
    (i : Located Instruction) : Prop where
  whole : Whole {} E.ast o w
  plays : E.Plays o frame
  code : E.program.codeOf? o = some frame.closure.code
  instruction : w.instructions[k]? = some i
  ip : frame.ip = offsetAt w.instructions k
  within : Within w s
  owns : s.Owns frame.ip
  yields : s.piece.Yields i

/-- The instruction `i`, before which the call is, was written for the piece `t`. -/
def CompiledFrom (E : Execution) (frame : Frame Value) (i : Located Instruction) (t : Piece) :
    Prop :=
  ∃ o w s k, E.Written o w s k frame i ∧ s.piece = t

/-- In the turn from `m` to `m'` a call begins. It is made by the instruction of a call expression
with this span, and `caller`, called by `outer`, will go on behind that instruction. -/
structure Begins (E : Execution) (m m' : Machine Console Value) (caller : Frame Value)
    (outer : List (Frame Value)) (span : Span) : Prop where
  reaches : Reaches nativeHost E.first m
  turn : turn nativeHost m = .next m'
  calling : ∃ frame i function args, m.frames = frame :: outer ∧ (∃ m₁, m.Fetches i.value m₁) ∧
    E.CompiledFrom frame i (.expr (.call function args span)) ∧
    caller = { frame with ip := frame.ip + i.value.opcode.width }
  called : ∃ callee, m'.frames = callee :: caller :: outer

/-- The call that `caller` made by a call expression with this span is still active: since it began
there have always been more calls than `caller` and its callers. -/
def Pending (E : Execution) (m : Machine Console Value) (caller : Frame Value)
    (outer : List (Frame Value)) (span : Span) : Prop :=
  ∃ m₁ m₂, E.Begins m₁ m₂ caller outer span ∧ ReachesAbove nativeHost (outer.length + 1) m₂ m

variable {E : Execution} {m m' : Machine Console Value} {frame caller : Frame Value}
  {callers inner outer : List (Frame Value)} {i : Located Instruction} {t : Piece} {span : Span}

/-! ### Spans of instructions -/

/-- Behind an instruction the span of a call is that of the instruction. -/
theorem CompiledFrom.span_eq (h : E.CompiledFrom frame i t) :
    Frame.span { frame with ip := frame.ip + i.value.opcode.width } = i.span := by
  obtain ⟨o, w, s, k, h, -⟩ := h
  have hspans : frame.code.spans.toList = spansOf w.instructions := by
    rw [Frame.code, h.whole.code_of E.compiles h.code, Fragment.toList_spans_assemble]
  have hip := h.ip
  have hsucc := offsetAt_succ h.instruction
  have hwidth := Opcode.width_pos i.value.opcode
  have hlast := getElem?_spansOf (x := frame.ip + i.value.opcode.width - 1) h.instruction
    (by omega) (by omega)
  show frame.code.spanAt _ = _
  rw [Code.spanAt, Array.getD_eq_getD_getElem?, ← Array.getElem?_toList, hspans, hlast,
    Option.getD_some]

theorem CompiledFrom.yields (h : E.CompiledFrom frame i t) : t.Yields i := by
  obtain ⟨o, w, s, k, h, rfl⟩ := h
  exact h.yields

theorem Pending.span_eq (h : E.Pending m caller outer span) : caller.span = span := by
  obtain ⟨m₁, m₂, hbegins, -⟩ := h
  obtain ⟨frame, i, function, args, -, -, hcompiled, rfl⟩ := hbegins.calling
  rw [hcompiled.span_eq, hcompiled.yields.span]
  rfl

/-- An instruction before which a call stands was written for some piece. -/
theorem Active.exists_compiledFrom {globals : Globals Value} {o : Option Nat} {w : Site}
    {is : List (Located Instruction)} {k : Nat} {region : List Value}
    (h : E.Active globals o w is k frame region) (hstanding : Standing is k frame region)
    (hi : is[k]? = some i) : ∃ t, E.CompiledFrom frame i t := by
  obtain rfl := h.instructions
  obtain ⟨s, hwithin, howns, hyields⟩ := h.whole.exists_owns hi
  rw [← hstanding.ip] at howns
  exact ⟨s.piece, o, w, s, k,
    ⟨h.whole, h.plays, h.code, hi, hstanding.ip, hwithin, howns, hyields⟩, rfl⟩

/-! ### Pending calls -/

/-- At the start only the main code is active. -/
theorem frames_first (E : Execution) :
    E.first.frames = [{ closure := E.program.main E.identity }] := by
  rw [first, start_eq]

/-- A turn that adds a call executes the instruction of a call expression. -/
theorem begins_of_enter (hreaches : Reaches nativeHost E.first m)
    (hturn : turn nativeHost m = .next m') (hframes : m.frames = frame :: outer)
    {callee : Frame Value} (hframes' : m'.frames = callee :: caller :: outer) :
    ∃ span, E.Begins m m' caller outer span := by
  obtain ⟨pre, region, is, k, o, w, hframed, hstanding, hactive⟩ :=
    exists_active_of_frames hreaches hframes
  obtain ⟨i, hi, hfetches, heffect⟩ := hframed.effect hstanding hturn
  obtain ⟨t, hcompiled⟩ := hactive.exists_compiledFrom hstanding hi
  have hgone : (m.goTo (offsetAt is (k + 1))).frames =
      { frame with ip := offsetAt is (k + 1) } :: outer := by
    rw [frames_goTo, hframes]
    rfl
  obtain ⟨hop, callee', hcalled⟩ := heffect.of_longer (by rw [hgone, hframes']; simp)
  obtain ⟨function, args, span, rfl⟩ := Piece.eq_call (hop ▸ hcompiled.yields.opcode)
  refine ⟨span, hreaches, hturn, ⟨frame, i, function, args, hframes, ⟨_, hfetches⟩, hcompiled, ?_⟩,
    callee, hframes'⟩
  rw [hframes', hgone] at hcalled
  rw [(List.cons.inj (List.cons.inj hcalled).2).1, offsetAt_succ hi, hstanding.ip]

theorem Pending.turn (h : E.Pending m caller outer span)
    (hturn : Machine.turn nativeHost m = .next m') (hdepth : outer.length + 1 < m'.frames.length) :
    E.Pending m' caller outer span := by
  obtain ⟨m₁, m₂, hbegins, habove⟩ := h
  exact ⟨m₁, m₂, hbegins, habove.tail ⟨hturn, hdepth⟩⟩

/-- Every call but the innermost one has a call pending. -/
theorem exists_pending (hreaches : Reaches nativeHost E.first m)
    (hframes : m.frames = inner ++ caller :: outer) (hinner : inner ≠ []) :
    ∃ span, E.Pending m caller outer span := by
  induction hreaches generalizing inner caller outer with
  | refl =>
    have hlength := congrArg List.length hframes
    rw [frames_first, List.length_singleton, List.length_append, List.length_cons] at hlength
    exact absurd (List.length_eq_zero_iff.mp (by omega)) hinner
  | @tail m₁ m₂ hreaches hturn ih =>
    obtain ⟨g, rest, rfl⟩ := List.exists_cons_of_ne_nil hinner
    obtain ⟨frame, callers, hframes₁, hmove⟩ := move hreaches hturn
    have hdepth : outer.length + 1 < m₂.frames.length := by
      rw [hframes, List.length_append, List.length_cons, List.length_cons]
      omega
    -- what is pending before the turn is pending after it
    have hkept : ∀ {inner' : List (Frame Value)}, callers = inner' ++ caller :: outer →
        ∃ span, E.Pending m₂ caller outer span := by
      rintro inner' rfl
      have hframes₁' : m₁.frames = (frame :: inner') ++ caller :: outer := hframes₁
      obtain ⟨span, hpending⟩ := ih hframes₁' (List.cons_ne_nil _ _)
      exact ⟨span, hpending.turn hturn hdepth⟩
    generalize hframes₂ : m₂.frames = frames at hmove
    rw [hframes] at hframes₂
    cases hmove with
    | within => exact hkept (List.cons.inj hframes₂).2.symm
    | leave => exact hkept hframes₂.symm
    | enter ip callee =>
      obtain ⟨rfl, htail⟩ := List.cons.inj hframes₂
      cases rest with
      | nil =>
        -- the caller of the new call is the one that ran before
        obtain ⟨rfl, rfl⟩ := List.cons.inj htail
        obtain ⟨span, hbegins⟩ := begins_of_enter hreaches hturn hframes₁ hframes
        exact ⟨span, m₁, m₂, hbegins, .refl⟩
      | cons g' rest => exact hkept (List.cons.inj htail).2.symm

/-- The main code is outermost. -/
theorem plays_of_outermost (hreaches : Reaches nativeHost E.first m)
    (hframes : m.frames = inner ++ [frame]) : E.Plays none frame := by
  have hfirst : E.first.frames = [] ++ { closure := E.program.main E.identity } :: [] :=
    E.frames_first
  obtain ⟨inner', ip, -, hframes'⟩ :=
    frames_of_above .refl hfirst (reachesAbove_zero .refl hreaches)
  rw [hframes] at hframes'
  have hlast := (List.append_inj' hframes' rfl).2
  rw [List.singleton_inj.mp hlast]
  rfl

/-! ### Faults -/

/-- Compiled code is found malformed only where the machine has no slot for a global. -/
theorem eq_globalOutOfRange {fault : Fault} (hreaches : Reaches nativeHost E.first m)
    (hturn : turn nativeHost m = .halt (.fault fault, m'))
    (hkind : fault.kind = .malformedBytecode ∨ fault.kind = .unknownOpcode) :
    ∃ n, fault = .globalOutOfRange n := by
  have hfull : E.config.maxFrames - 1 + 1 ≤ max 1 E.config.maxFrames := by omega
  -- the run ends at a limit, or as the evaluation of the tree, which knows no code
  have hleads := leads_program E.compiles E.config E.identity hfull (.inl (by omega))
  have hends := (hleads.of_reaches hreaches).halt hturn
  generalize Meaning.program .evaluation (E.config.maxFrames - 1) _ E.ast = ending at hends
  rcases hends with hlimit | hends
  · cases hlimit with
    | stack => simp [Fault.kind] at hkind
    | global => exact ⟨_, rfl⟩
  · rcases ending with ⟨v | fault' | _, σ⟩
    · obtain ⟨-, _, hvalue, -⟩ := hends
      cases hvalue
    · obtain ⟨-, hmistake, hfault⟩ := hends
      cases hfault
      rw [Fault.IsMistake] at hmistake
      rcases hkind with hkind | hkind <;> simp [hkind] at hmistake
    · obtain ⟨-, hfault⟩ := hends
      cases hfault
      simp [Fault.kind] at hkind

/-- A fault is that of an instruction, which was fetched. -/
theorem exists_fetched {fault : Fault} (hreaches : Reaches nativeHost E.first m)
    (hturn : turn nativeHost m = .halt (.fault fault, m')) :
    ∃ frame callers i t, m.frames = frame :: callers ∧ (∃ m₁, m.Fetches i.value m₁) ∧
      E.CompiledFrom frame i t ∧
      m'.frames = { frame with ip := frame.ip + i.value.opcode.width } :: callers := by
  have hgrounded : m.Grounded := stable_grounded.of_reaches nativeHost.keeps_true
    (grounded_start _ _ _ _ _ _) hreaches
  obtain ⟨frame, callers, hframes, hfailure⟩ := failure_of_turn hgrounded hturn
  refine ⟨frame, callers, ?_⟩
  generalize m'.frames = frames at hfailure ⊢
  cases hfailure with
  | @executing _ j hdecode =>
    have hfetches : m.Fetches j (m.goTo (frame.ip + j.opcode.width)) :=
      ⟨frame, callers, hframes, hdecode, rfl⟩
    obtain ⟨_, _, is, k, o, w, -, hstanding, hactive⟩ := exists_active_of_frames hreaches hframes
    obtain ⟨i, hi, rfl⟩ := hstanding.fetched hframes hfetches
    obtain ⟨t, hcompiled⟩ := hactive.exists_compiledFrom hstanding hi
    exact ⟨i, t, hframes, ⟨_, hfetches⟩, hcompiled, rfl⟩
  | @fetching e =>
    -- compiled code has no such fault: the only one of these kinds is about a global
    have hkind : e.raised.kind = .malformedBytecode ∨ e.raised.kind = .unknownOpcode := by
      cases e with
      | unknownOpcode => exact .inr rfl
      | truncatedOperands => exact .inl rfl
    obtain ⟨n, hfault⟩ := eq_globalOutOfRange hreaches hturn hkind
    cases e <;> cases hfault
  | ended =>
    obtain ⟨n, hfault⟩ := eq_globalOutOfRange hreaches hturn (.inl rfl)
    cases hfault

/-- The report is right about a fault of the instruction `i`, before which the machine stands: it
has the span of the instruction, and its trace goes through the active calls, innermost first. The
innermost entry has the place of the instruction, and the others have those of the calls that are
pending. -/
structure Locates (E : Execution) (m : Machine Console Value) (i : Located Instruction)
    (file : String) (d : Diagnostic) : Prop where
  span : d.span = i.span
  length : d.trace.length = m.frames.length
  entries : ∀ {inner frame outer}, m.frames = inner ++ frame :: outer →
    ∃ entry, d.trace[inner.length]? = some entry ∧ entry.file = file ∧
      (outer = [] → E.Plays none frame ∧ entry.function = "<main>") ∧
      (outer ≠ [] → entry.function = frame.closure.code.render) ∧
      (inner = [] → entry.PointsTo i.span) ∧
      (inner ≠ [] → ∃ span, E.Pending m frame outer span ∧ entry.PointsTo span)

theorem locates (hreaches : Reaches nativeHost E.first m) (hframes : m.frames = frame :: callers)
    (hcompiled : E.CompiledFrom frame i t)
    (hframes' : m'.frames = { frame with ip := frame.ip + i.value.opcode.width } :: callers)
    (fault : Fault) (file source : String) : E.Locates m i file (m'.locate fault file source) where
  span := by rw [span_locate hframes', hcompiled.span_eq]
  length := by
    show (trace file m'.frames).length = _
    rw [length_trace, hframes', hframes, List.length_cons, List.length_cons]
  entries := by
    intro inner f outer hsplit
    -- the innermost call has gone on behind the instruction, and the others are as before
    obtain ⟨inner', f', hf', hlength, hclosure, hfirst, hother⟩ : ∃ inner' f',
        m'.frames = inner' ++ f' :: outer ∧ inner'.length = inner.length ∧
        f'.closure = f.closure ∧ (inner = [] → f'.span = i.span) ∧ (inner ≠ [] → f' = f) := by
      have hsplit' := hsplit
      rw [hframes] at hsplit'
      cases inner with
      | nil =>
        obtain ⟨rfl, rfl⟩ := List.cons.inj hsplit'
        exact ⟨[], _, hframes', rfl, rfl, fun _ => hcompiled.span_eq, fun hne => absurd rfl hne⟩
      | cons g rest =>
        obtain ⟨rfl, rfl⟩ := List.cons.inj hsplit'
        refine ⟨_ :: rest, f, hframes', rfl, rfl, fun hnil => ?_, fun _ => rfl⟩
        exact absurd hnil (List.cons_ne_nil _ _)
    refine ⟨traceEntry file f' outer.isEmpty, ?_, rfl, ?_, ?_, ?_, ?_⟩
    · show (trace file m'.frames)[inner.length]? = _
      rw [hf', ← hlength, getElem?_trace]
    · rintro rfl
      exact ⟨plays_of_outermost hreaches hsplit, rfl⟩
    · intro hne
      rw [traceEntry, List.isEmpty_eq_false_iff.mpr hne, ← hclosure]
      rfl
    · intro hnil
      rw [← hfirst hnil]
      exact ⟨rfl, rfl⟩
    · intro hne
      obtain ⟨span, hpending⟩ := exists_pending hreaches hsplit hne
      refine ⟨span, hpending, ?_⟩
      rw [← hpending.span_eq, ← hother hne]
      exact ⟨rfl, rfl⟩

/-- A source text that is accepted can be run. -/
theorem exists_of_source {file source : String} {p : Program}
    (h : compileSource file source = .ok p) (config : MachineConfig) (identity : Nat) :
    ∃ E : Execution, parseSource file source = .ok E.ast ∧ E.program = p ∧ E.config = config ∧
      E.identity = identity := by
  cases hfrom : compileSourceFrom {} file source with
  | error d =>
    rw [compileSource, hfrom] at h
    cases h
  | ok result =>
    rw [compileSource, hfrom] at h
    cases h
    obtain ⟨ast, hparse, hcompile⟩ := compileSourceFrom_ok hfrom
    exact ⟨⟨ast, result.1, result.2, hcompile, config, identity⟩, hparse, rfl, rfl, rfl⟩

end Execution

/-- A run of a source text that ends in a fault. The fault is that of an instruction, and the
report has its span, which is that of the piece of the tree for which the instruction was written.
The trace has one entry for each active call. That of the main code is the last, and the entries
behind the first have the places of the calls that are pending. -/
theorem faults_attributed {file source : String} {p : Program}
    (hcompile : compileSource file source = .ok p) {config : MachineConfig} {identity fuel : Nat}
    {fault : Fault} {m' : Machine Console Value}
    (hrun : runProgram fuel config p #[] identity = (.fault fault, m')) :
    ∃ E : Execution, parseSource file source = .ok E.ast ∧ E.program = p ∧ E.config = config ∧
      E.identity = identity ∧ ∃ m frame callers i t, Reaches nativeHost E.first m ∧
        turn nativeHost m = .halt (.fault fault, m') ∧ m.frames = frame :: callers ∧
        (∃ m₁, m.Fetches i.value m₁) ∧ E.CompiledFrom frame i t ∧ i.span = t.span ∧
        E.Locates m i file (m'.locate fault file source) := by
  obtain ⟨E, hparse, rfl, rfl, rfl⟩ := Execution.exists_of_source hcompile config identity
  obtain ⟨m, hreaches, hturn⟩ := exists_halt hrun nofun
  obtain ⟨frame, callers, i, t, hframes, hfetches, hcompiled, hframes'⟩ :=
    Execution.exists_fetched hreaches hturn
  exact ⟨E, hparse, rfl, rfl, rfl, m, frame, callers, i, t, hreaches, hturn, hframes, hfetches,
    hcompiled, hcompiled.yields.span,
    Execution.locates hreaches hframes hcompiled hframes' fault file source⟩

/-- A function fails that another one has called, which the main code has called. -/
def failingCall : String :=
  "let f = fn(x) { 1 + x };\nlet g = fn(y) { let z = f(y); z };\ng(true)"

theorem trace_failingCall : ((compileSource "<test>" failingCall).toOption.bind fun p =>
    (runProgram 100 {} p #[] 0).1.fault?.map fun fault =>
      ((runProgram 100 {} p #[] 0).2.locate fault "<test>" failingCall).trace) = some
    [⟨"<fn f>", "<test>", 1, 17⟩, ⟨"<fn g>", "<test>", 2, 25⟩, ⟨"<main>", "<test>", 3, 1⟩] := by
  decide +kernel

theorem failingCall_attributed : ∃ p fault m',
    compileSource "<test>" failingCall = .ok p ∧
    runProgram 100 {} p #[] 0 = (.fault fault, m') ∧
    (m'.locate fault "<test>" failingCall).trace =
      [⟨"<fn f>", "<test>", 1, 17⟩, ⟨"<fn g>", "<test>", 2, 25⟩, ⟨"<main>", "<test>", 3, 1⟩] ∧
    ∃ E : Execution, parseSource "<test>" failingCall = .ok E.ast ∧ E.program = p ∧ E.config = {} ∧
      E.identity = 0 ∧ ∃ m frame callers i t, Reaches nativeHost E.first m ∧
        turn nativeHost m = .halt (.fault fault, m') ∧ m.frames = frame :: callers ∧
        (∃ m₁, m.Fetches i.value m₁) ∧ E.CompiledFrom frame i t ∧ i.span = t.span ∧
        E.Locates m i "<test>" (m'.locate fault "<test>" failingCall) := by
  obtain ⟨p, hp, htrace⟩ := Option.bind_eq_some_iff.mp trace_failingCall
  obtain ⟨fault, hfault, htrace⟩ := Option.map_eq_some_iff.mp htrace
  have hcompile : compileSource "<test>" failingCall = .ok p := by
    cases hresult : compileSource "<test>" failingCall with
    | error d =>
      rw [hresult] at hp
      cases hp
    | ok p' =>
      rw [hresult] at hp
      cases hp
      rfl
  generalize hrun : runProgram 100 {} p #[] 0 = result at hfault htrace
  obtain ⟨outcome, m'⟩ := result
  obtain rfl := Outcome.eq_fault_of_fault? hfault
  exact ⟨p, fault, m', hcompile, hrun, htrace, faults_attributed hcompile hrun⟩

end Bytescript
