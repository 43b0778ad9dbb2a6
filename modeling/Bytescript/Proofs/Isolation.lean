/-
Calls are isolated.

While a call runs, its callers are not touched: neither where they go on, nor their closures, nor
what they have on the stack. When the call ends, its caller goes on just behind the call, and its
stack is what it was below the closure that was called, with the value of the call on top.

Main statement: `call_isolated`, for all programs that were compiled, at the start or after other
programs, and for everything that a run reaches after a call.
-/
import Bytescript.Proofs.Frames
import Bytescript.Proofs.Incremental

namespace Bytescript

/-- The function is the main code of a program that was compiled, or is in the pool of one. -/
def FunctionCode.IsCompiled (f : FunctionCode) : Prop :=
  ∃ st ast p st₁, CompilerState.Reachable st ∧ compileFrom st ast = .ok (p, st₁) ∧
    (f = { code := p.code } ∨ .function f ∈ p.constants.toList)

theorem FunctionCode.IsCompiled.lists {f : FunctionCode} (h : f.IsCompiled) : ∃ is, f.Lists is := by
  obtain ⟨st, ast, p, st₁, hst, hcompile, hf⟩ := h
  obtain ⟨hready, hconstants, is, hemitted, hbytes, htargets⟩ := hst.ready.compile hcompile
  have hlimit : st₁.scopes.root.definitions ≤ Scopes.globalLimit := by
    rw [Scopes.root, hready.outer]
    exact hready.limit
  rcases hf with rfl | hf
  · refine ⟨is, Nat.le_refl _, hbytes, htargets, st₁.limits, ?_, ?_, hemitted.balanced,
      hemitted.proper⟩
    · rw [hready.limits_eq]
    · rw [hready.limits_eq]
      exact ⟨hready.limit, Nat.zero_le _, Nat.zero_le _⟩
  · rw [hconstants] at hf
    obtain ⟨count, hchecked⟩ := hready.valid.functions f hf
    exact hchecked.lists hlimit

namespace Machine

theorem length_callLocals {f : FunctionCode} {args : List Value} (h : args.length = f.params)
    (hparams : f.params ≤ f.locals) : (callLocals f args).length = f.locals := by
  rw [callLocals, List.length_append, List.length_replicate]
  omega

/-- Nothing but where it stands is known of a call. -/
abbrev Somewhere : List (Located Instruction) → Nat → Frame Value → List Value → Prop :=
  fun _ _ _ _ => True

/-- Calls stand in their code, if the closures that can be called have code whose heights and jumps
fit together. -/
theorem lasts_somewhere {m : Machine Console Value}
    (h : ∀ v ∈ m.stack, v.Every fun _ f _ => ∃ is, f.Lists is) : Lasts Somewhere m where
  gives _ _ _ _ _ := trivial
  drops _ _ _ _ _ := trivial
  jumps _ _ _ _ _ _ _ := trivial
  setsLocal _ _ _ _ _ := trivial
  calls _ _ _ _ := trivial
  enters _ _ hcallee hcount := by
    obtain ⟨is, hlists⟩ := (Value.every_closure.mp (h _ hcallee)).1
    exact ⟨is, 0, .start hlists _ (length_callLocals hcount hlists.params), trivial⟩

/-- Turns lead from one machine to another, and after each of them more than `depth` calls are
active. -/
abbrev ReachesAbove (host : Host Console Value) (depth : Nat) :
    Machine Console Value → Machine Console Value → Prop :=
  Relation.ReflTransGen fun m m' => turn host m = .next m' ∧ depth < m'.frames.length

theorem ReachesAbove.reaches {host : Host Console Value} {depth : Nat}
    {m m' : Machine Console Value} (h : ReachesAbove host depth m m') : Reaches host m m' :=
  h.lift id fun _ _ hstep => hstep.1

/-- A run stays above some depth, or there is a first turn that leaves it. -/
theorem reachesAbove_or {host : Host Console Value} {m m' : Machine Console Value} (depth : Nat)
    (h : Reaches host m m') : ReachesAbove host depth m m' ∨
      ∃ m₁ m₂, ReachesAbove host depth m m₁ ∧ turn host m₁ = .next m₂ ∧
        m₂.frames.length ≤ depth ∧ Reaches host m₂ m' := by
  induction h with
  | refl => exact .inl .refl
  | @tail m₁ m₂ _ hturn ih =>
    rcases ih with habove | ⟨m₃, m₄, habove, hturn', hle, hreaches⟩
    · by_cases hdepth : depth < m₂.frames.length
      · exact .inl (habove.tail ⟨hturn, hdepth⟩)
      · exact .inr ⟨m₁, m₂, habove, hturn, Nat.not_lt.mp hdepth, .refl⟩
    · exact .inr ⟨m₃, m₄, habove, hturn', hle, hreaches.tail hturn⟩

section

variable {st st₁ : CompilerState} {ast : Ast} {p : Program} {globals : Globals Value}
  {config : MachineConfig} {identity : Nat} {m m' : Machine Console Value}

/-- All closures of a run have code whose heights and jumps fit together. -/
theorem closures_of_reaches (hst : st.Reachable) (hcompile : compileFrom st ast = .ok (p, st₁))
    (hglobals : ∀ v, some v ∈ globals → v.Every fun _ f _ => f.IsCompiled)
    (hreaches : Reaches nativeHost (start nativeHost config p globals {} identity) m) :
    ∀ v ∈ m.stack, v.Every fun _ f _ => ∃ is, f.Lists is := by
  have hlists : ∀ f : FunctionCode, (f = { code := p.code } ∨ .function f ∈ p.constants.toList) →
      ∃ is, f.Lists is := fun f hf =>
    FunctionCode.IsCompiled.lists ⟨st, ast, p, st₁, hst, hcompile, hf⟩
  have hstart := holds_start (Q := fun f => ∃ is, f.Lists is) config identity
    (hlists _ (.inl rfl)) (fun f hf => hlists f (.inr hf))
    (fun v hv => (hglobals v hv).mono fun _ f _ hf => hf.lists)
  exact (hstart.of_reaches (nativeHost_keeps _) hreaches).stack

/-- A call of a closure begins: its caller waits behind the call, and the closure lies on what the
caller has on the stack, below the locals of the call. -/
theorem framed_of_call {frame : Frame Value} {callers : List (Frame Value)}
    {below args free : List Value} {i : Nat} {f : FunctionCode} {m₁ : Machine Console Value}
    (hclosures : ∀ v ∈ m.stack, v.Every fun _ f _ => ∃ is, f.Lists is)
    (hframes : m.frames = frame :: callers) (hcall : m.Fetches ⟨.call, [args.length]⟩ m₁)
    (hstack : m.stack = (below ++ .closure i f free :: args).toArray)
    (hturn : turn nativeHost m = .next m') :
    Framed (Stands Somewhere) ({ frame with ip := frame.ip + Opcode.call.width } :: callers)
      (below ++ [.closure i f free]) m' ⟨⟨i, f, free⟩, 0, below.length + 1⟩
      ({ frame with ip := frame.ip + Opcode.call.width } :: callers)
      (below ++ [.closure i f free]) (callLocals f args) := by
  have hcall' := hcall
  obtain ⟨_, _, hframes', -, rfl⟩ := hcall'
  rw [hframes] at hframes'
  cases hframes'
  have hframes₁ : (m.goTo (frame.ip + Opcode.call.width)).frames =
      { frame with ip := frame.ip + Opcode.call.width } :: callers := by
    rw [frames_goTo, hframes]
    rfl
  -- the turn goes on, so nothing kept the call from being entered
  by_cases hcount : args.length = f.params
  case neg =>
    rw [turn_call_wrongCount hcall hstack hcount] at hturn
    cases hturn
  by_cases hdepth : (m.goTo (frame.ip + Opcode.call.width)).calls.depth < m.config.maxFrames
  case neg =>
    rw [turn_call_tooDeep hcall hstack hcount (Nat.not_lt.mp hdepth)] at hturn
    cases hturn
  rcases turn_call_closure hcall hstack hcount hdepth with ⟨-, hentered⟩ | ⟨-, _, hfull⟩
  case inr =>
    rw [hfull] at hturn
    cases hturn
  rw [hentered] at hturn
  cases hturn
  have hclosure : Value.closure i f free ∈ m.stack := by simp [hstack]
  obtain ⟨is, hlists⟩ := (Value.every_closure.mp (hclosures _ hclosure)).1
  refine ⟨congrArg (_ :: ·) hframes₁, ?_, .here, by simp, is, 0,
    .start hlists _ (length_callLocals hcount hlists.params), trivial⟩
  simp [callLocals]

/-- Calls are isolated. From the turn on that enters a call of a closure, a run keeps the callers as
they are, with all that lies on the stack below the closure, until the call is left. Then the caller
goes on just behind the call, and one value has taken the place of the closure and its arguments:
the one with which the call was left. -/
theorem call_isolated (hst : st.Reachable) (hcompile : compileFrom st ast = .ok (p, st₁))
    (hglobals : ∀ v, some v ∈ globals → v.Every fun _ f _ => f.IsCompiled)
    (hreaches : Reaches nativeHost (start nativeHost config p globals {} identity) m)
    {frame : Frame Value} {callers : List (Frame Value)} (hframes : m.frames = frame :: callers)
    {below args free : List Value} {i : Nat} {f : FunctionCode} {m₁ : Machine Console Value}
    (hcall : m.Fetches ⟨.call, [args.length]⟩ m₁)
    (hstack : m.stack = (below ++ .closure i f free :: args).toArray)
    (hturn : turn nativeHost m = .next m') :
    m'.frames = ⟨⟨i, f, free⟩, 0, below.length + 1⟩ ::
      { frame with ip := frame.ip + Opcode.call.width } :: callers ∧
    ∀ m₂, Reaches nativeHost m' m₂ →
      (ReachesAbove nativeHost (callers.length + 1) m' m₂ ∧
        ∃ inner rest, inner ≠ [] ∧
          m₂.frames = inner ++ { frame with ip := frame.ip + Opcode.call.width } :: callers ∧
          m₂.stack = (below ++ Value.closure i f free :: rest).toArray) ∨
      ∃ m₃ m₄, ReachesAbove nativeHost (callers.length + 1) m' m₃ ∧
        turn nativeHost m₃ = .next m₄ ∧ Reaches nativeHost m₄ m₂ ∧
        ∃ j m₅ rest top v, m₃.Fetches j m₅ ∧ Returns j top v ∧
          m₃.stack = (below ++ Value.closure i f free :: (rest ++ top)).toArray ∧
          m₄.frames = { frame with ip := frame.ip + Opcode.call.width } :: callers ∧
          m₄.stack = (below ++ [v]).toArray := by
  have hclosures : ∀ m, Reaches nativeHost (start nativeHost config p globals {} identity) m →
      ∀ v ∈ m.stack, v.Every fun _ f _ => ∃ is, f.Lists is :=
    fun _ => closures_of_reaches hst hcompile hglobals
  have hentered := framed_of_call (hclosures m hreaches) hframes hcall hstack hturn
  have hreaches' := hreaches.tail hturn
  generalize hback : ({ frame with ip := frame.ip + Opcode.call.width } : Frame Value) = back
    at hentered ⊢
  -- while the depth stays above that of the caller, the call is not left
  have habove : ∀ {m₂}, ReachesAbove nativeHost (callers.length + 1) m' m₂ →
      Rests (Stands Somewhere) (back :: callers) (below ++ [.closure i f free]) m₂ := by
    intro m₂ h
    induction h with
    | refl => exact ⟨_, _, _, _, hentered⟩
    | @tail m₂ m₃ hm₂ hstep ih =>
      obtain ⟨_, _, _, _, hframed⟩ := ih
      have hlasts := lasts_somewhere (hclosures m₂ (hreaches'.trans (ReachesAbove.reaches hm₂)))
      rcases hframed.turn hlasts hstep.1 with hrests | ⟨-, -, _, _, _, _, _, -, -, -, hleft, -⟩
      · exact hrests
      · have hdepth := hstep.2
        rw [hleft, List.length_cons] at hdepth
        omega
  refine ⟨hentered.frames, fun m₂ hm₂ => ?_⟩
  rcases reachesAbove_or (callers.length + 1) hm₂ with hrun | ⟨m₃, m₄, hrun, hlast, hle, hrest⟩
  · obtain ⟨frame', callers', pre, region, hframed⟩ := habove hrun
    obtain ⟨inner, rest, rfl, rfl⟩ := hframed.under.exists_append
    refine .inl ⟨hrun, frame' :: inner, rest ++ region, by simp, hframed.frames, ?_⟩
    rw [hframed.stack]
    simp
  · obtain ⟨_, _, _, _, hframed⟩ := habove hrun
    have hlasts := lasts_somewhere (hclosures m₃ (hreaches'.trans (ReachesAbove.reaches hrun)))
    rcases hframed.turn hlasts hlast with hrests | ⟨-, -, j, m₅, rest, top, v, hj, hv, h₃, h₄, h₅⟩
    · have hdepth := hrests.length_lt
      rw [List.length_cons] at hdepth
      omega
    · refine .inr ⟨m₃, m₄, hrun, hlast, hrest, j, m₅, rest, top, v, hj, hv, ?_, h₄, ?_⟩
      · rw [h₃]
        simp
      · rw [h₅, List.dropLast_concat]

end

/-! ### Runs that are computed -/

/-- The machine after some turns, if the run goes on for so long. -/
def after (host : Host Console Value) : Nat → Machine Console Value → Option (Machine Console Value)
  | 0, m => some m
  | n + 1, m =>
    match turn host m with
    | .next m => after host n m
    | .halt _ => none

theorem reaches_of_after {host : Host Console Value} {n : Nat} {m m' : Machine Console Value}
    (h : after host n m = some m') : Reaches host m m' := by
  induction n generalizing m with
  | zero =>
    cases h
    exact .refl
  | succ n ih =>
    rw [after] at h
    split at h
    · next m₁ hturn => exact .head hturn (ih h)
    · cases h

theorem turn_of_after_one {host : Host Console Value} {m m' : Machine Console Value}
    (h : after host 1 m = some m') : turn host m = .next m' := by
  rw [after] at h
  split at h
  · next m₁ hturn =>
    cases h
    exact hturn
  · cases h

theorem exists_closure_of_typeName {v : Value} (h : v.typeName = "Closure") :
    ∃ i f free, v = .closure i f free := by
  cases v with
  | closure i f free => exact ⟨i, f, free, rfl⟩
  | null | boolean | integer | float | string | array | hash | builtin | function =>
    simp [Value.typeName] at h

/-- The next instruction of a machine. -/
def next? (m : Machine Console Value) : Option Instruction := do
  let frame ← m.frames.head?
  (← Instruction.decodeAt frame.code.bytes frame.ip).toOption

theorem fetches_of_next? {m : Machine Console Value} {i : Instruction} (h : m.next? = some i) :
    ∃ m₁, m.Fetches i m₁ := by
  obtain ⟨frame, hframe, h⟩ := Option.bind_eq_some_iff.mp h
  obtain ⟨decoded, hdecoded, h⟩ := Option.bind_eq_some_iff.mp h
  obtain ⟨callers, hframes⟩ := List.head?_eq_some_iff.mp hframe
  cases decoded with
  | error e => cases h
  | ok j =>
    cases h
    exact ⟨_, frame, callers, hframes, hdecoded, rfl⟩

end Machine

/-- `let f = fn(x) { 1 + if (x) { return 7; } else { 2 } }; let g = fn(y) { 10 + f(y) }; 5 +
g(true)`: the call of `f` is left from inside an operand, while `g` and the main code have operands
waiting. -/
def earlyReturn : Ast :=
  let choice : Expr := .conditional (.identifier "x" {}) (.mk [.ret (some (.integer 7 {})) {}] {})
    (some (.mk [.expression (.integer 2 {}) {}] {})) {}
  let f : Expr := .function (some "f") [⟨"x", {}⟩]
    (.mk [.expression (.binary .add (.integer 1 {}) choice {}) {}] {}) {}
  let g : Expr := .function (some "g") [⟨"y", {}⟩]
    (.mk [.expression (.binary .add (.integer 10 {})
      (.call (.identifier "f" {}) [.identifier "y" {}] {}) {}) {}] {}) {}
  ⟨[.declare .constant "f" f {}, .declare .constant "g" g {},
    .expression (.binary .add (.integer 5 {})
      (.call (.identifier "g" {}) [.boolean true {}] {}) {}) {}]⟩

open Machine in
theorem run_earlyReturn : ((compileFrom {} earlyReturn).toOption.bind fun r =>
    (after nativeHost 11 (start nativeHost {} r.1 #[] {} 0)).bind fun m =>
      (after nativeHost 1 m).bind fun m' => (after nativeHost 5 m').map fun m₂ =>
        (m.next?, m.frames.length, m.stack.toList.map Value.typeName, m₂.frames.length)) =
    some (some ⟨.call, [1]⟩, 2,
      ["Integer", "Closure", "Boolean", "Integer", "Closure", "Boolean"], 2) := by
  decide +kernel

open Machine in
theorem earlyReturn_isolated : ∃ p st m m' m₂, compileFrom {} earlyReturn = .ok (p, st) ∧
    Reaches nativeHost (start nativeHost {} p #[] {} 0) m ∧ m.next? = some ⟨.call, [1]⟩ ∧
    turn nativeHost m = .next m' ∧ Reaches nativeHost m' m₂ ∧ m₂.frames.length = 2 ∧
    ∃ below callee arg, below.length = 4 ∧ m.stack = (below ++ [callee, arg]).toArray ∧
      ∃ m₄ v, Reaches nativeHost m' m₄ ∧ Reaches nativeHost m₄ m₂ ∧ m₄.frames.length = 2 ∧
        m₄.stack = (below ++ [v]).toArray := by
  obtain ⟨⟨p, st⟩, hcompile, h⟩ := Option.bind_eq_some_iff.mp run_earlyReturn
  obtain ⟨m, hm, h⟩ := Option.bind_eq_some_iff.mp h
  obtain ⟨m', hm', h⟩ := Option.bind_eq_some_iff.mp h
  obtain ⟨m₂, hm₂, h⟩ := Option.map_eq_some_iff.mp h
  simp only [Prod.mk.injEq] at h
  obtain ⟨hnext, hdepth, htypes, hdepth₂⟩ := h
  have hturn : turn nativeHost m = .next m' := turn_of_after_one hm'
  have hcompile' := eq_ok_of_toOption hcompile
  -- the closure that is called lies below one argument
  simp only [List.map_eq_cons_iff, List.map_eq_nil_iff] at htypes
  obtain ⟨a, _, hstack, -, b, _, rfl, -, c, _, rfl, -, d, _, rfl, -, callee, _, rfl, hcallee, arg, _,
    rfl, -, rfl⟩ := htypes
  obtain ⟨i, f, free, rfl⟩ := exists_closure_of_typeName hcallee
  replace hstack : m.stack = ([a, b, c, d] ++ .closure i f free :: [arg]).toArray :=
    Array.toList_inj.mp hstack
  obtain ⟨frame, callers, hframes⟩ : ∃ frame callers, m.frames = frame :: callers :=
    List.exists_cons_of_length_eq_add_one hdepth
  have hcallers : callers.length = 1 := by simpa [hframes] using hdepth
  obtain ⟨m₁, hcall⟩ : ∃ m₁, m.Fetches ⟨.call, [[arg].length]⟩ m₁ := fetches_of_next? hnext
  have hreaches₂ := reaches_of_after hm₂
  refine ⟨p, st, m, m', m₂, hcompile', reaches_of_after hm, hnext, hturn, hreaches₂, hdepth₂,
    [a, b, c, d], _, arg, rfl, hstack, ?_⟩
  have hisolated := call_isolated .init hcompile' (fun v hv => by simp at hv)
    (reaches_of_after hm) hframes hcall hstack hturn
  rcases hisolated.2 m₂ hreaches₂ with ⟨-, inner, rest, hinner, hframes₂, -⟩ |
    ⟨m₃, m₄, habove, hleave, hreaches₄, _, _, _, _, v, -, -, -, hframes₄, hstack₄⟩
  · have hpos := List.length_pos_iff.mpr hinner
    rw [hframes₂, List.length_append, List.length_cons, hcallers] at hdepth₂
    omega
  · refine ⟨m₄, v, ?_, hreaches₄, by rw [hframes₄, List.length_cons, hcallers], hstack₄⟩
    exact habove.reaches.tail hleave

end Bytescript
