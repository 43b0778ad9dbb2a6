/-
What each instruction does, with the language's own values.

For every instruction there is one equation that gives its turn from the machine just behind it
(`Fetches`) and the values it finds on the stack. Stacks are written as lists, bottom first.
-/
import Bytescript.Machine.Native
import Bytescript.Proofs.Turn

namespace Bytescript

namespace Machine

variable {m m₁ : Machine Console Value} {stack : List Value} {n : Nat}

/-- The turn that pushes a value. -/
def pushing (m : Machine Console Value) (v : Value) : Turn Console Value :=
  if m.stack.size < m.config.stackSize then .next { m with stack := m.stack.push v }
  else .halt (.fault .stackOverflow, m)

/-- The turn that pushes a result, or halts. -/
def yielding (m : Machine Console Value) : Except Fault Value → Turn Console Value
  | .ok v => pushing m v
  | .error fault => .halt (.fault fault, m)

theorem ofStep_push (v : Value) (m : Machine Console Value) :
    Turn.ofStep (exec (do push v; return none) m) = pushing m v := by
  rw [exec_bind, exec_push, pushing]
  by_cases hroom : m.stack.size < m.config.stackSize
  · rw [if_pos hroom, if_pos hroom]
    rfl
  · rw [if_neg hroom, if_neg hroom]
    rfl

theorem ofStep_tryAsk_push (result : Except Fault Value) (m : Machine Console Value) :
    Turn.ofStep (exec (do push (← tryAsk (Host.pureResult result)); return none) m) =
      yielding m result := by
  rw [exec_bind, exec_tryAsk]
  cases result with
  | error fault => rfl
  | ok v => exact ofStep_push v m

/-! ### Pushing a value that is known -/

theorem turn_constant {v : Value} (h : m.Fetches ⟨.constant, [n]⟩ m₁)
    (hconstant : m₁.constants[n]? = some v) : turn nativeHost m = pushing m₁ v := by
  rw [turn_of_fetches h, ← ofStep_push]
  simp [execute, exec_bind, exec_get, hconstant]

theorem turn_boolean (b : Bool) (h : m.Fetches ⟨if b then .true else .false, []⟩ m₁) :
    turn nativeHost m = pushing m₁ (.boolean b) := by
  rw [turn_of_fetches h, ← ofStep_push]
  cases b <;> rfl

theorem turn_null (h : m.Fetches ⟨.null, []⟩ m₁) : turn nativeHost m = pushing m₁ .null := by
  rw [turn_of_fetches h, ← ofStep_push]
  rfl

theorem turn_getGlobal (h : m.Fetches ⟨.getGlobal, [n]⟩ m₁) :
    turn nativeHost m = pushing m₁ (m₁.globals[n]?.join.getD .null) := by
  rw [turn_of_fetches h, ← ofStep_push]
  simp only [execute, getGlobal, List.getD_cons_zero, exec_bind, exec_get]
  rcases m₁.globals[n]? with _ | _ | v <;> rfl

theorem turn_getLocal {frame : Frame Value} {callers : List (Frame Value)} {v : Value}
    (h : m.Fetches ⟨.getLocal, [n]⟩ m₁) (hframes : m₁.frames = frame :: callers)
    (hlocal : m₁.stack[frame.base + n]? = some v) : turn nativeHost m = pushing m₁ v := by
  obtain ⟨hlt, hget⟩ := Array.getElem?_eq_some_iff.mp hlocal
  rw [turn_of_fetches h, ← ofStep_push]
  simp [execute, getLocal, localSlot, exec_bind, exec_get, exec_currentFrame hframes, hlt, hget]

theorem turn_getFree {frame : Frame Value} {callers : List (Frame Value)} {v : Value}
    (h : m.Fetches ⟨.getFree, [n]⟩ m₁) (hframes : m₁.frames = frame :: callers)
    (hfree : frame.closure.free[n]? = some v) : turn nativeHost m = pushing m₁ v := by
  rw [turn_of_fetches h, ← ofStep_push]
  simp [execute, exec_bind, exec_currentFrame hframes, hfree]

theorem turn_getFree_missing {frame : Frame Value} {callers : List (Frame Value)}
    (h : m.Fetches ⟨.getFree, [n]⟩ m₁) (hframes : m₁.frames = frame :: callers)
    (hfree : frame.closure.free[n]? = none) :
    turn nativeHost m = .halt (.fault (.noCapture n), m₁) := by
  rw [turn_of_fetches h]
  simp only [execute, exec_bind, exec_currentFrame hframes, List.getD_cons_zero, hfree]
  rfl

theorem turn_getBuiltin {b : Builtin} (h : m.Fetches ⟨.getBuiltin, [n]⟩ m₁)
    (hbuiltin : Builtin.ofIndex? n = some b) : turn nativeHost m = pushing m₁ (.builtin b) := by
  rw [turn_of_fetches h, ← ofStep_push]
  simp only [execute, List.getD_cons_zero, exec_bind, exec_tryAsk, nativeHost, hbuiltin]
  rfl

theorem turn_currentClosure {frame : Frame Value} {callers : List (Frame Value)}
    (h : m.Fetches ⟨.currentClosure, []⟩ m₁) (hframes : m₁.frames = frame :: callers) :
    turn nativeHost m = pushing m₁
      (.closure frame.closure.identity frame.closure.code frame.closure.free) := by
  rw [turn_of_fetches h, ← ofStep_push]
  simp only [execute, exec_bind, exec_currentFrame hframes]
  rfl

/-! ### Operators -/

/-- The operators on two values. -/
def Opcode.IsBinary (op : Opcode) : Prop :=
  op ∈ [Opcode.add, .sub, .mul, .div, .mod, .equal, .notEqual, .greaterThan, .greaterEqual]

theorem turn_binary {op : Opcode} {a b : Value} (hop : Opcode.IsBinary op)
    (h : m.Fetches ⟨op, []⟩ m₁) (hstack : m₁.stack = (stack ++ [a, b]).toArray) :
    turn nativeHost m = yielding { m₁ with stack := stack.toArray } (Value.binary op a b) := by
  have hpop : exec pop m₁ = (.ok b, { m₁ with stack := (stack ++ [a]).toArray }) :=
    exec_pop _ (by simp [hstack])
  have hexecute : exec (execute nativeHost ⟨op, []⟩) m₁ =
      exec (do push (← tryAsk (nativeHost.binary op a b)); return none)
        { m₁ with stack := stack.toArray } := by
    simp only [Opcode.IsBinary, List.mem_cons, List.not_mem_nil, or_false] at hop
    rcases hop with rfl | rfl | rfl | rfl | rfl | rfl | rfl | rfl | rfl <;>
      · simp only [execute]
        rw [exec_bind, hpop]
        dsimp only
        rw [exec_bind, exec_pop stack rfl]
  rw [turn_of_fetches h, hexecute]
  exact ofStep_tryAsk_push _ _

theorem turn_unary {op : Opcode} {v : Value} (hop : op = .minus ∨ op = .bang)
    (h : m.Fetches ⟨op, []⟩ m₁) (hstack : m₁.stack = (stack ++ [v]).toArray) :
    turn nativeHost m = yielding { m₁ with stack := stack.toArray } (Value.unary op v) := by
  have hexecute : exec (execute nativeHost ⟨op, []⟩) m₁ =
      exec (do push (← tryAsk (nativeHost.unary op v)); return none)
        { m₁ with stack := stack.toArray } := by
    rcases hop with rfl | rfl <;>
      · simp only [execute]
        rw [exec_bind, exec_pop stack hstack]
  rw [turn_of_fetches h, hexecute]
  exact ofStep_tryAsk_push _ _

theorem turn_index {container key : Value} (h : m.Fetches ⟨.index, []⟩ m₁)
    (hstack : m₁.stack = (stack ++ [container, key]).toArray) :
    turn nativeHost m =
      yielding { m₁ with stack := stack.toArray } (Value.index container key) := by
  have hpop : exec pop m₁ = (.ok key, { m₁ with stack := (stack ++ [container]).toArray }) :=
    exec_pop _ (by simp [hstack])
  rw [turn_of_fetches h, ← ofStep_tryAsk_push]
  simp only [execute]
  rw [exec_bind, hpop]
  dsimp only
  rw [exec_bind, exec_pop stack rfl]
  rfl

theorem turn_array {items : List Value} (h : m.Fetches ⟨.array, [items.length]⟩ m₁)
    (hstack : m₁.stack = (stack ++ items).toArray) :
    turn nativeHost m = pushing { m₁ with stack := stack.toArray } (.array items) := by
  rw [turn_of_fetches h, ← ofStep_push]
  simp only [execute, List.getD_cons_zero]
  rw [exec_bind, exec_take stack hstack]
  rfl

theorem turn_hash {flat : List Value} (h : m.Fetches ⟨.hash, [flat.length]⟩ m₁)
    (heven : flat.length % 2 = 0) (hstack : m₁.stack = (stack ++ flat).toArray) :
    turn nativeHost m =
      yielding { m₁ with stack := stack.toArray } (Value.hashOfPairs (pairUp flat)) := by
  rw [turn_of_fetches h, ← ofStep_tryAsk_push]
  simp only [execute, List.getD_cons_zero, heven, ne_eq, not_true_eq_false, if_false]
  rw [exec_bind, exec_take stack hstack]
  rfl

/-! ### Dropping and storing -/

theorem turn_pop {v : Value} (h : m.Fetches ⟨.pop, []⟩ m₁)
    (hstack : m₁.stack = (stack ++ [v]).toArray) :
    turn nativeHost m = .next { m₁ with stack := stack.toArray, lastPopped := some v } := by
  rw [turn_of_fetches h]
  simp only [execute]
  rw [exec_bind, exec_pop stack hstack]
  rfl

/-- The operation that stores in a slot, for a new name or one that exists. -/
theorem turn_setGlobal {op : Opcode} {v : Value} (hop : op = .setGlobal ∨ op = .assignGlobal)
    (h : m.Fetches ⟨op, [n]⟩ m₁) (hstack : m₁.stack = (stack ++ [v]).toArray) :
    turn nativeHost m =
      if n < m₁.config.globalsSize then
        .next { m₁ with stack := stack.toArray, globals := storeGlobal m₁.globals n v }
      else .halt (.fault (.globalOutOfRange n), { m₁ with stack := stack.toArray }) := by
  -- assigning does what declaring does
  have hexecute : exec (execute nativeHost ⟨op, [n]⟩) m₁ =
      exec (do setGlobal n; return none) m₁ := by
    rcases hop with rfl | rfl <;> rfl
  rw [turn_of_fetches h, hexecute, setGlobal, exec_bind, exec_bind, exec_pop stack hstack]
  dsimp only
  rw [exec_bind, exec_get]
  dsimp only
  by_cases hn : n < m₁.config.globalsSize
  · rw [if_pos hn, if_pos hn]
    rfl
  · rw [if_neg hn, if_neg hn]
    rfl

theorem turn_setLocal {op : Opcode} {v : Value} {frame : Frame Value}
    {callers : List (Frame Value)} (hop : op = .setLocal ∨ op = .assignLocal)
    (h : m.Fetches ⟨op, [n]⟩ m₁) (hframes : m₁.frames = frame :: callers)
    (hstack : m₁.stack = (stack ++ [v]).toArray) (hslot : frame.base + n < stack.length) :
    turn nativeHost m = .next { m₁ with stack := (stack.set (frame.base + n) v).toArray } := by
  have hexecute : exec (execute nativeHost ⟨op, [n]⟩) m₁ =
      exec (do setLocal n; return none) m₁ := by
    rcases hop with rfl | rfl <;> rfl
  have hlocal : exec (localSlot n) { m₁ with stack := stack.toArray } =
      (.ok (frame.base + n), { m₁ with stack := stack.toArray }) := by
    simp [localSlot, exec_bind, exec_get, exec_pure,
      exec_currentFrame (m := { m₁ with stack := stack.toArray }) hframes, hslot]
  rw [turn_of_fetches h, hexecute, setLocal, exec_bind, exec_bind, exec_pop stack hstack]
  dsimp only
  rw [exec_bind, hlocal]
  simp [exec_modify, exec_pure, Turn.ofStep]

/-! ### Jumps -/

theorem exec_jump {frame : Frame Value} {callers : List (Frame Value)}
    (hframes : m.frames = frame :: callers) (hn : n ≤ frame.code.bytes.size) :
    exec (jump n) m = (.ok (), m.goTo n) := by
  simp only [jump, exec_bind, exec_currentFrame hframes, hn, if_true]
  rfl

theorem turn_jump {frame : Frame Value} {callers : List (Frame Value)}
    (h : m.Fetches ⟨.jump, [n]⟩ m₁) (hframes : m₁.frames = frame :: callers)
    (hn : n ≤ frame.code.bytes.size) : turn nativeHost m = .next (m₁.goTo n) := by
  rw [turn_of_fetches h]
  simp only [execute, List.getD_cons_zero]
  rw [exec_bind, exec_jump hframes hn]
  rfl

theorem turn_jumpNotTruthy {frame : Frame Value} {callers : List (Frame Value)} {v : Value}
    (h : m.Fetches ⟨.jumpNotTruthy, [n]⟩ m₁) (hframes : m₁.frames = frame :: callers)
    (hn : n ≤ frame.code.bytes.size) (hstack : m₁.stack = (stack ++ [v]).toArray) :
    turn nativeHost m =
      .next (if v.isTruthy then { m₁ with stack := stack.toArray }
        else { m₁ with stack := stack.toArray }.goTo n) := by
  rw [turn_of_fetches h]
  simp only [execute, List.getD_cons_zero]
  rw [exec_bind, exec_pop stack hstack]
  dsimp only
  rw [exec_bind, exec_ask]
  show Turn.ofStep
    (exec (if v.isTruthy = true then _ else _) { m₁ with stack := stack.toArray }) = _
  split
  · rfl
  · rw [exec_bind, exec_jump (m := { m₁ with stack := stack.toArray }) hframes hn]
    rfl

/-! ### Calls -/

theorem turn_closure {identity : Nat} {code : FunctionCode} {free : List Value}
    (h : m.Fetches ⟨.closure, [n, free.length]⟩ m₁)
    (hconstant : m₁.constants[n]? = some (.function identity code))
    (hstack : m₁.stack = (stack ++ free).toArray) :
    turn nativeHost m =
      pushing { m₁ with stack := stack.toArray, nextIdentity := m₁.nextIdentity + 1 }
        (.closure m₁.nextIdentity code free) := by
  have hmake : exec (makeClosure nativeHost n free.length) m₁ =
      exec (push (.closure m₁.nextIdentity code free))
        { m₁ with stack := stack.toArray, nextIdentity := m₁.nextIdentity + 1 } := by
    simp only [makeClosure, exec_bind, exec_get, hconstant, exec_ask]
    show exec (take free.length >>= _) m₁ = _
    rw [exec_bind, exec_take stack hstack]
    rfl
  rw [turn_of_fetches h, ← ofStep_push, exec_bind, ← hmake]
  exact congrArg Turn.ofStep (exec_bind _ _ _)

/-- A machine after `count` times null was pushed. -/
def withNulls (m : Machine Console Value) (count : Nat) : Machine Console Value :=
  { m with stack := (m.stack.toList ++ List.replicate count Value.null).toArray }

/-- The stack has room for `count` more values. -/
def HasRoom (m : Machine Console Value) (count : Nat) : Prop :=
  count = 0 ∨ m.stack.size + count ≤ m.config.stackSize

/-- All nulls find room on the stack, or it overflows. -/
theorem exec_pushNulls (count : Nat) (m : Machine Console Value) :
    (m.HasRoom count ∧ exec (pushNulls nativeHost count) m = (.ok (), m.withNulls count)) ∨
      (¬ m.HasRoom count ∧
        ∃ m', exec (pushNulls nativeHost count) m = (.error .stackOverflow, m')) := by
  induction count generalizing m with
  | zero =>
    refine .inl ⟨.inl rfl, ?_⟩
    rw [withNulls, List.replicate_zero, List.append_nil]
    rfl
  | succ count ih =>
    have hsucc : exec (pushNulls nativeHost (count + 1)) m =
        exec (push Value.null >>= fun _ => pushNulls nativeHost count) m := rfl
    rw [hsucc, exec_bind, exec_push]
    by_cases hroom : m.stack.size < m.config.stackSize
    · rw [if_pos hroom]
      dsimp only
      have hiff : m.HasRoom (count + 1) ↔
          HasRoom { m with stack := m.stack.push .null } count := by
        simp only [HasRoom, Array.size_push]
        omega
      rw [hiff]
      rcases ih { m with stack := m.stack.push .null } with ⟨hfits, hok⟩ | ⟨hfull, m', herror⟩
      · refine .inl ⟨hfits, ?_⟩
        rw [hok]
        simp [withNulls, List.replicate_succ]
      · exact .inr ⟨hfull, m', herror⟩
    · rw [if_neg hroom]
      refine .inr ⟨?_, m, rfl⟩
      simp only [HasRoom]
      omega

theorem exec_callClosure (closure : Closure Value) (argc : Nat) (m : Machine Console Value) :
    exec (callClosure nativeHost closure argc) m =
      if argc ≠ closure.code.params then
        (.error (.wrongArgumentCount closure.code.params argc), m)
      else if m.config.maxFrames ≤ m.calls.depth then
        (.error (.frameOverflow m.config.maxFrames), m)
      else match exec (pushNulls nativeHost (closure.code.locals - argc)) m with
        | (.ok _, m₁) =>
          (.ok (), { m₁ with calls := m₁.calls.push ⟨closure, 0, m.stack.size - argc⟩ })
        | (.error fault, m₁) => (.error fault, m₁) := by
  rw [callClosure]
  split
  · rfl
  · rw [exec_bind, exec_get]
    dsimp only
    split
    · rfl
    · rw [exec_bind]
      rcases exec (pushNulls nativeHost (closure.code.locals - argc)) m with ⟨_ | _, _⟩ <;> rfl

section

variable {identity : Nat} {code : FunctionCode} {free args : List Value}

theorem exec_call_of_closure
    (hstack : m.stack = (stack ++ .closure identity code free :: args).toArray) :
    exec (call nativeHost args.length) m =
      exec (callClosure nativeHost ⟨identity, code, free⟩ args.length) m := by
  have hsize : m.stack.size = stack.length + 1 + args.length := by
    simp [hstack]
    omega
  have hslot : m.stack.size - (args.length + 1) = stack.length := by omega
  have hcallee : m.stack[stack.length]? = some (.closure identity code free) := by simp [hstack]
  rw [call, exec_bind, exec_get]
  dsimp only
  rw [if_neg (by omega), exec_bind, exec_get, hslot]
  dsimp only
  rw [hcallee]
  rfl

theorem turn_call_of_closure (h : m.Fetches ⟨.call, [args.length]⟩ m₁)
    (hstack : m₁.stack = (stack ++ .closure identity code free :: args).toArray) :
    turn nativeHost m =
      .ofStep (match exec (callClosure nativeHost ⟨identity, code, free⟩ args.length) m₁ with
        | (.ok _, m) => (.ok none, m)
        | (.error fault, m) => (.error fault, m)) := by
  rw [turn_of_fetches h]
  show Turn.ofStep (exec (call nativeHost args.length >>= fun _ => pure none) m₁) = _
  rw [exec_bind, exec_call_of_closure hstack]
  rcases exec (callClosure nativeHost ⟨identity, code, free⟩ args.length) m₁ with ⟨_ | _, _⟩ <;> rfl

/-- A call with the wrong number of arguments. -/
theorem turn_call_wrongCount (h : m.Fetches ⟨.call, [args.length]⟩ m₁)
    (hstack : m₁.stack = (stack ++ .closure identity code free :: args).toArray)
    (hcount : args.length ≠ code.params) :
    turn nativeHost m = .halt (.fault (.wrongArgumentCount code.params args.length), m₁) := by
  rw [turn_call_of_closure h hstack, exec_callClosure, if_pos hcount]
  rfl

/-- A call that would be nested too deeply. -/
theorem turn_call_tooDeep (h : m.Fetches ⟨.call, [args.length]⟩ m₁)
    (hstack : m₁.stack = (stack ++ .closure identity code free :: args).toArray)
    (hcount : args.length = code.params) (hdepth : m₁.config.maxFrames ≤ m₁.calls.depth) :
    turn nativeHost m = .halt (.fault (.frameOverflow m₁.config.maxFrames), m₁) := by
  rw [turn_call_of_closure h hstack, exec_callClosure, if_neg (not_not_intro hcount), if_pos hdepth]
  rfl

/-- A call of a closure: its frame is entered, unless there is no room for its locals. -/
theorem turn_call_closure (h : m.Fetches ⟨.call, [args.length]⟩ m₁)
    (hstack : m₁.stack = (stack ++ .closure identity code free :: args).toArray)
    (hcount : args.length = code.params) (hdepth : m₁.calls.depth < m₁.config.maxFrames) :
    (m₁.HasRoom (code.locals - args.length) ∧ turn nativeHost m =
        .next { m₁ with
          stack := (stack ++ Value.closure identity code free :: args ++
            List.replicate (code.locals - args.length) Value.null).toArray
          calls := m₁.calls.push ⟨⟨identity, code, free⟩, 0, stack.length + 1⟩ }) ∨
      (¬ m₁.HasRoom (code.locals - args.length) ∧
        ∃ m', turn nativeHost m = .halt (.fault .stackOverflow, m')) := by
  have hbase : m₁.stack.size - args.length = stack.length + 1 := by
    simp [hstack]
    omega
  rw [turn_call_of_closure h hstack, exec_callClosure, if_neg (not_not_intro hcount),
    if_neg (Nat.not_le.mpr hdepth)]
  dsimp only
  rcases exec_pushNulls (code.locals - args.length) m₁ with ⟨hfits, hok⟩ | ⟨hfull, m', herror⟩
  · refine .inl ⟨hfits, ?_⟩
    rw [hok, hbase]
    simp [withNulls, hstack, Turn.ofStep]
  · refine .inr ⟨hfull, m', ?_⟩
    rw [herror]
    rfl

end

/-- A call of a value that is no closure. -/
theorem exec_call_of_not_closure {callee : Value} {args : List Value}
    (hcallee : ∀ identity code free, callee ≠ .closure identity code free)
    (hstack : m.stack = (stack ++ callee :: args).toArray) :
    exec (call nativeHost args.length) m =
      match (nativeHost.callBuiltin? callee args).run.run m.host with
      | (.ok (some v), host) => exec (push v) { m with stack := stack.toArray, host }
      | (.ok none, host) => (.error (.notCallable callee.typeName), { m with host })
      | (.error fault, host) => (.error fault, { m with host }) := by
  have hsize : m.stack.size = stack.length + 1 + args.length := by
    simp [hstack]
    omega
  have hslot : m.stack.size - (args.length + 1) = stack.length := by omega
  have hget : m.stack[stack.length]? = some callee := by simp [hstack]
  -- the callee lies below its arguments
  have hargs : (m.stack.extract (stack.length + 1) m.stack.size).toList = args := by
    rw [hsize, hstack]
    simp
  have hshrink : m.stack.shrink stack.length = stack.toArray := by simp [hstack]
  have hno : exec (ask (V := Value) (nativeHost.closure? callee)) m = (.ok none, m) := by
    cases callee with
    | closure identity code free => exact absurd rfl (hcallee identity code free)
    | null | boolean | integer | float | string | array | hash | builtin | function => rfl
  rw [call, exec_bind, exec_get]
  dsimp only
  rw [if_neg (by omega), exec_bind, exec_get, hslot]
  dsimp only
  rw [hget]
  dsimp only
  rw [exec_bind, hno]
  dsimp only
  rw [exec_bind, exec_get]
  dsimp only
  rw [hargs, exec_bind, exec_tryAsk]
  rcases (nativeHost.callBuiltin? callee args).run.run m.host with ⟨fault | _ | v, host⟩
  · rfl
  · rfl
  · dsimp only
    rw [exec_bind, exec_modify]
    dsimp only
    rw [hshrink]

/-- A call of a built-in function. -/
theorem turn_call_builtin {b : Builtin} {args : List Value}
    (h : m.Fetches ⟨.call, [args.length]⟩ m₁)
    (hstack : m₁.stack = (stack ++ .builtin b :: args).toArray) :
    turn nativeHost m = match (b.call args).run.run m₁.host with
      | (.ok v, host) => pushing { m₁ with stack := stack.toArray, host } v
      | (.error fault, host) => .halt (.fault fault, { m₁ with host }) := by
  have hcall : nativeHost.callBuiltin? (.builtin b) args = some <$> b.call args := rfl
  rw [turn_of_fetches h]
  show Turn.ofStep (exec (call nativeHost args.length >>= fun _ => pure none) m₁) = _
  rw [exec_bind, exec_call_of_not_closure (by simp) hstack, hcall, ExceptT.run_map, StateT.run_map]
  rcases (b.call args).run.run m₁.host with ⟨fault | v, host⟩
  · rfl
  · exact (congrArg Turn.ofStep (exec_bind _ _ _)).symm.trans (ofStep_push v _)

/-- A call of a value that cannot be called. -/
theorem turn_call_notCallable {callee : Value} {args : List Value}
    (hclosure : ∀ identity code free, callee ≠ .closure identity code free)
    (hbuiltin : ∀ b, callee ≠ .builtin b) (h : m.Fetches ⟨.call, [args.length]⟩ m₁)
    (hstack : m₁.stack = (stack ++ callee :: args).toArray) :
    turn nativeHost m = .halt (.fault (.notCallable callee.typeName), m₁) := by
  have hno : (nativeHost.callBuiltin? callee args).run.run m₁.host = (.ok none, m₁.host) := by
    cases callee with
    | builtin b => exact absurd rfl (hbuiltin b)
    | null | boolean | integer | float | string | array | hash | closure | function => rfl
  rw [turn_of_fetches h]
  show Turn.ofStep (exec (call nativeHost args.length >>= fun _ => pure none) m₁) = _
  rw [exec_bind, exec_call_of_not_closure hclosure hstack, hno]
  rfl

/-! ### Returns -/

/-- How a frame is left with a value. -/
def leaving (m : Machine Console Value) (v : Value) : Turn Console Value :=
  match m.frames with
  | [] => .halt (.fault .noInstruction, m)
  | [_] => .halt (.value v, { m with calls := m.calls.pop })
  | frame :: _ :: _ =>
    pushing { m with calls := m.calls.pop, stack := m.stack.shrink (frame.base - 1) } v

theorem leaving_main {frame : Frame Value} (hframes : m.frames = [frame]) (v : Value) :
    leaving m v = .halt (.value v, { m with calls := m.calls.pop }) := by
  rw [leaving, hframes]

theorem leaving_call {frame : Frame Value} {callers : List (Frame Value)}
    (hframes : m.frames = frame :: callers) (hcallers : callers ≠ []) (v : Value) :
    leaving m v =
      pushing { m with calls := m.calls.pop, stack := m.stack.shrink (frame.base - 1) } v := by
  obtain ⟨caller, rest, rfl⟩ := List.exists_cons_of_ne_nil hcallers
  rw [leaving, hframes]

theorem ofStep_leave (v : Value) (m : Machine Console Value) :
    Turn.ofStep (exec (leave v) m) = leaving m v := by
  rw [leave, leaving, exec_bind, exec_get]
  rcases hframes : m.frames with _ | ⟨frame, _ | ⟨caller, callers⟩⟩
  · simp only [hframes]
    rfl
  · simp only [hframes]
    rfl
  · simp only [hframes]
    rw [exec_bind, exec_modify]
    exact ofStep_push v _

theorem turn_returnValue {v : Value} (h : m.Fetches ⟨.returnValue, []⟩ m₁)
    (hstack : m₁.stack = (stack ++ [v]).toArray) :
    turn nativeHost m = leaving { m₁ with stack := stack.toArray } v := by
  rw [turn_of_fetches h, ← ofStep_leave]
  simp only [execute]
  rw [exec_bind, exec_pop stack hstack]

theorem turn_ret (h : m.Fetches ⟨.ret, []⟩ m₁) : turn nativeHost m = leaving m₁ .null := by
  rw [turn_of_fetches h, ← ofStep_leave]
  rfl

end Machine

end Bytescript
