/-
What a turn does to the running call.

While a call runs, the stack holds what was there before the call, the locals of the call and its
temporaries. `Effect` says what an instruction does to the locals and temporaries, if the run goes
on: it takes its operands and leaves one value (`Gives` says where that comes from), or none, or it
stores one, or it enters or leaves a call.

Main statement: `Poised.effect`. A turn of proper code that goes on has the effect of its
instruction.
-/
import Bytescript.Proofs.Functions
import Bytescript.Proofs.Instructions
import Bytescript.Proofs.Invariants
import Bytescript.Proofs.Passages

namespace Bytescript

/-- The instructions that push a value which was there before, or a new closure. -/
def Opcode.IsLoad (op : Opcode) : Prop :=
  op ∈ [Opcode.constant, .getGlobal, .getLocal, .getFree, .currentClosure, .closure]

/-- How many closures an instruction makes. -/
def Instruction.makes (i : Instruction) : Nat :=
  match i.opcode with
  | .closure => 1
  | _ => 0

namespace Machine

/-- Where the value `v` comes from that an instruction pushes. The machine runs `frame` and has the
locals and temporaries `region`, the last of which, `top`, are taken by the instruction. -/
inductive Gives (m : Machine Console Value) (frame : Frame Value) (region : List Value) :
    Instruction → List Value → Value → Prop where
  | constant {n : Nat} {v : Value} : m.constants[n]? = some v →
      Gives m frame region ⟨.constant, [n]⟩ [] v
  | getGlobal (n : Nat) :
      Gives m frame region ⟨.getGlobal, [n]⟩ [] (m.globals[n]?.join.getD .null)
  | getLocal {n : Nat} {v : Value} : region[n]? = some v →
      Gives m frame region ⟨.getLocal, [n]⟩ [] v
  | getFree {n : Nat} {v : Value} : frame.closure.free[n]? = some v →
      Gives m frame region ⟨.getFree, [n]⟩ [] v
  | currentClosure : Gives m frame region ⟨.currentClosure, []⟩ []
      (.closure frame.closure.identity frame.closure.code frame.closure.free)
  | closure {n identity : Nat} {code : FunctionCode} {free : List Value} :
      m.constants[n]? = some (.function identity code) →
      Gives m frame region ⟨.closure, [n, free.length]⟩ free (.closure m.nextIdentity code free)
  /-- No closure is in the value that is not in an operand. -/
  | computed {i : Instruction} {top : List Value} {v : Value} : ¬ i.opcode.IsLoad →
      (∀ P, (∀ w ∈ top, w.Every P) → v.Every P) → Gives m frame region i top v

/-- A call is left by the instruction `i`, which takes the values `top`, with the value `v`. -/
inductive Returns : Instruction → List Value → Value → Prop where
  | value (v : Value) : Returns ⟨.returnValue, []⟩ [v] v
  | null : Returns ⟨.ret, []⟩ [] .null

/-- The stack when a closure is called: the locals that are no parameters begin as nulls. -/
def callLocals (code : FunctionCode) (args : List Value) : List Value :=
  args ++ List.replicate (code.locals - args.length) Value.null

/-- What the instruction `i` makes of a machine that is just behind it. The machine runs `frame`,
and its stack is `pre` with the locals and temporaries `region` of the call on top. -/
inductive Effect (m : Machine Console Value) (frame : Frame Value) (pre : List Value) :
    List Value → Instruction → Machine Console Value → Prop where
  /-- The instruction takes its operands and pushes a value. -/
  | gives {r top : List Value} {i : Instruction} {v : Value} {host : Console} :
      top.length = i.pops → i.pushes = 1 → i.opcode.isJump = false →
      Gives m frame (r ++ top) i top v →
      Effect m frame pre (r ++ top) i
        { m with
          stack := (pre ++ (r ++ [v])).toArray
          host
          nextIdentity := m.nextIdentity + i.makes }
  /-- A value is dropped, as one that is not needed or as a condition that is met. -/
  | drops {r : List Value} {v : Value} {i : Instruction} {lastPopped : Option Value} :
      i.opcode = .pop ∨ i.opcode = .jumpNotTruthy →
      Effect m frame pre (r ++ [v]) i { m with stack := (pre ++ r).toArray, lastPopped }
  | jumps {r top : List Value} {op : Opcode} {n : Nat} :
      op.isJump = true → top.length = Instruction.taken ⟨op, [n]⟩ →
      Effect m frame pre (r ++ top) ⟨op, [n]⟩ ({ m with stack := (pre ++ r).toArray }.goTo n)
  | setsGlobal {r : List Value} {v : Value} {op : Opcode} {n : Nat} :
      op = .setGlobal ∨ op = .assignGlobal →
      Effect m frame pre (r ++ [v]) ⟨op, [n]⟩
        { m with stack := (pre ++ r).toArray, globals := storeGlobal m.globals n v }
  | setsLocal {r : List Value} {v : Value} {op : Opcode} {n : Nat} :
      op = .setLocal ∨ op = .assignLocal → n < r.length →
      Effect m frame pre (r ++ [v]) ⟨op, [n]⟩ { m with stack := (pre ++ r.set n v).toArray }
  /-- A closure is called: its locals lie above the closure. -/
  | enters {r args free : List Value} {identity : Nat} {code : FunctionCode} :
      args.length = code.params →
      Effect m frame pre (r ++ .closure identity code free :: args) ⟨.call, [args.length]⟩
        { m with
          stack := (pre ++ r ++ [Value.closure identity code free] ++
            callLocals code args).toArray
          calls := m.calls.push ⟨⟨identity, code, free⟩, 0, (pre ++ r).length + 1⟩ }
  /-- The call ends, and its value takes the place of the closure that was called. -/
  | leaves {r top : List Value} {i : Instruction} {v : Value} :
      Returns i top v → m.frames.tail ≠ [] →
      Effect m frame pre (r ++ top) i
        { m with stack := (pre.dropLast ++ [v]).toArray, calls := m.calls.pop }

/-! ### Turns that go on -/

/-- If a turn goes on, then with a machine in `E`. -/
def Causes (t : Turn Console Value) (E : Machine Console Value → Prop) : Prop :=
  ∀ m, t = .next m → E m

section

variable {m : Machine Console Value} {E : Machine Console Value → Prop} {v : Value}

theorem causes_halt (result : Outcome Value × Machine Console Value) : Causes (.halt result) E := by
  intro m hm
  cases hm

theorem causes_next (h : E m) : Causes (.next m) E := by
  intro m' hm'
  cases hm'
  exact h

theorem causes_pushing (h : E { m with stack := m.stack.push v }) : Causes (pushing m v) E := by
  rw [pushing]
  by_cases hroom : m.stack.size < m.config.stackSize
  · rw [if_pos hroom]
    exact causes_next h
  · rw [if_neg hroom]
    exact causes_halt _

theorem causes_yielding {result : Except Fault Value}
    (h : ∀ v, result = .ok v → E { m with stack := m.stack.push v }) :
    Causes (yielding m result) E := by
  cases result with
  | error fault => exact causes_halt _
  | ok v => exact causes_pushing (h v rfl)

end

/-- The machine `m` is about to execute `i`, with which it comes to `m₁`. It runs `frame`, the stack
below the locals of which is `pre`, and it has all values that the instruction takes. -/
structure Poised (l : Limits) (m m₁ : Machine Console Value) (frame : Frame Value)
    (pre region : List Value) (i : Instruction) : Prop where
  fetches : m.Fetches i m₁
  frames : ∃ callers, m₁.frames = frame :: callers
  stack : m₁.stack = (pre ++ region).toArray
  base : frame.base = pre.length
  height : l.locals + i.pops ≤ region.length
  targets : i.opcode.isJump = true → ∀ t ∈ i.operands, t ≤ frame.code.bytes.size

namespace Poised

variable {l : Limits} {m m₁ : Machine Console Value} {frame : Frame Value}
  {pre region : List Value} {i : Instruction} {op : Opcode} {n : Nat}

/-- The operands of the instruction lie on top of the stack. -/
theorem split (h : Poised l m m₁ frame pre region i) :
    ∃ r top, region = r ++ top ∧ top.length = i.pops ∧ l.locals ≤ r.length := by
  have hheight := h.height
  refine ⟨region.take (region.length - i.pops), region.drop (region.length - i.pops),
    (List.take_append_drop _ _).symm, ?_, ?_⟩
  · rw [List.length_drop]
    omega
  · rw [List.length_take]
    omega

theorem split_one (h : Poised l m m₁ frame pre region i) (hpops : i.pops = 1) :
    ∃ r v, region = r ++ [v] ∧ m₁.stack = (pre ++ r ++ [v]).toArray ∧ l.locals ≤ r.length := by
  obtain ⟨r, top, rfl, htop, hle⟩ := h.split
  obtain ⟨v, rfl⟩ := List.length_eq_one_iff.mp (htop.trans hpops)
  refine ⟨r, v, rfl, ?_, hle⟩
  rw [h.stack, List.append_assoc]

/-- An instruction that pushes a value it finds. -/
theorem push (h : Poised l m m₁ frame pre region i) (hpops : i.pops = 0) (hpushes : i.pushes = 1)
    (hjump : i.opcode.isJump = false) (hmakes : i.makes = 0) {v : Value}
    (hv : Gives m₁ frame region i [] v) :
    Causes (pushing m₁ v) (Effect m₁ frame pre region i) := by
  refine causes_pushing ?_
  have heffect : Effect m₁ frame pre (region ++ []) i
      { m₁ with
        stack := (pre ++ (region ++ [v])).toArray
        host := m₁.host
        nextIdentity := m₁.nextIdentity + i.makes } :=
    .gives hpops.symm hpushes hjump (by rwa [List.append_nil])
  rw [List.append_nil, hmakes] at heffect
  have hpush : m₁.stack.push v = (pre ++ (region ++ [v])).toArray := by
    rw [h.stack, List.push_toArray, List.append_assoc]
  rw [hpush]
  exact heffect

/-- An instruction that computes a value from its operands. -/
theorem compute {r top : List Value} (hpops : top.length = i.pops) (hpushes : i.pushes = 1)
    (hjump : i.opcode.isJump = false) (hload : ¬ i.opcode.IsLoad) (hmakes : i.makes = 0)
    {v : Value} {host : Console} (hv : ∀ P, (∀ w ∈ top, w.Every P) → v.Every P) :
    Effect m₁ frame pre (r ++ top) i
      { m₁ with stack := (pre ++ r).toArray.push v, host } := by
  have heffect : Effect m₁ frame pre (r ++ top) i
      { m₁ with
        stack := (pre ++ (r ++ [v])).toArray
        host
        nextIdentity := m₁.nextIdentity + i.makes } :=
    .gives hpops hpushes hjump (.computed hload hv)
  have hpush : (pre ++ r).toArray.push v = (pre ++ (r ++ [v])).toArray := by
    rw [List.push_toArray, List.append_assoc]
  rw [hmakes] at heffect
  rw [hpush]
  exact heffect

/-! ### One instruction after the other -/

theorem constant (h : Poised l m m₁ frame pre region ⟨.constant, [n]⟩) :
    Causes (turn nativeHost m) (Effect m₁ frame pre region ⟨.constant, [n]⟩) := by
  cases hv : m₁.constants[n]? with
  | some v =>
    rw [turn_constant h.fetches hv]
    exact h.push rfl rfl rfl rfl (.constant hv)
  | none =>
    have hturn : turn nativeHost m = .halt (.fault (.noConstant n), m₁) := by
      rw [turn_of_fetches h.fetches]
      simp only [execute, List.getD_cons_zero, exec_bind, exec_get, hv]
      rfl
    rw [hturn]
    exact causes_halt _

theorem getLocal (h : Poised l m m₁ frame pre region ⟨.getLocal, [n]⟩) (hn : n < l.locals) :
    Causes (turn nativeHost m) (Effect m₁ frame pre region ⟨.getLocal, [n]⟩) := by
  obtain ⟨callers, hframes⟩ := h.frames
  have hlt : n < region.length := by
    have := h.height
    omega
  have hlocal : m₁.stack[frame.base + n]? = some region[n] := by
    rw [h.stack, h.base, List.getElem?_toArray, List.getElem?_append_right (Nat.le_add_right _ _),
      Nat.add_sub_cancel_left, List.getElem?_eq_getElem hlt]
  rw [turn_getLocal h.fetches hframes hlocal]
  exact h.push rfl rfl rfl rfl (.getLocal (List.getElem?_eq_getElem hlt))

theorem getFree (h : Poised l m m₁ frame pre region ⟨.getFree, [n]⟩) :
    Causes (turn nativeHost m) (Effect m₁ frame pre region ⟨.getFree, [n]⟩) := by
  obtain ⟨callers, hframes⟩ := h.frames
  cases hv : frame.closure.free[n]? with
  | some v =>
    rw [turn_getFree h.fetches hframes hv]
    exact h.push rfl rfl rfl rfl (.getFree hv)
  | none =>
    rw [turn_getFree_missing h.fetches hframes hv]
    exact causes_halt _

/-- A value that is made of nothing. -/
theorem fresh (h : Poised l m m₁ frame pre region i) (hpops : i.pops = 0) (hpushes : i.pushes = 1)
    (hjump : i.opcode.isJump = false) (hload : ¬ i.opcode.IsLoad) (hmakes : i.makes = 0)
    {v : Value} (hv : ∀ P, v.Every P) : Causes (pushing m₁ v) (Effect m₁ frame pre region i) :=
  h.push hpops hpushes hjump hmakes (.computed hload fun P _ => hv P)

theorem binary (hop : Opcode.IsBinary op) (h : Poised l m m₁ frame pre region ⟨op, []⟩) :
    Causes (turn nativeHost m) (Effect m₁ frame pre region ⟨op, []⟩) := by
  have hshape : Instruction.pops ⟨op, []⟩ = 2 ∧ Instruction.pushes ⟨op, []⟩ = 1 ∧
      op.isJump = false ∧ ¬ op.IsLoad ∧ Instruction.makes ⟨op, []⟩ = 0 := by
    have hop' := hop
    simp only [Opcode.IsBinary, List.mem_cons, List.not_mem_nil, or_false] at hop'
    rcases hop' with rfl | rfl | rfl | rfl | rfl | rfl | rfl | rfl | rfl <;>
      exact ⟨rfl, rfl, rfl, by simp [Opcode.IsLoad], rfl⟩
  obtain ⟨hpops, hpushes, hjump, hload, hmakes⟩ := hshape
  obtain ⟨r, top, rfl, htop, -⟩ := h.split
  obtain ⟨a, b, rfl⟩ := List.length_eq_two.mp (htop.trans hpops)
  have hstack : m₁.stack = (pre ++ r ++ [a, b]).toArray := by rw [h.stack, List.append_assoc]
  rw [turn_binary hop h.fetches hstack]
  refine causes_yielding fun v hv => compute htop hpushes hjump hload hmakes fun P _ => ?_
  have hyields := Value.yields_binary (P := P) op a b
  rw [hv] at hyields
  exact hyields

theorem unary (hop : op = .minus ∨ op = .bang) (h : Poised l m m₁ frame pre region ⟨op, []⟩) :
    Causes (turn nativeHost m) (Effect m₁ frame pre region ⟨op, []⟩) := by
  have hshape : Instruction.pops ⟨op, []⟩ = 1 ∧ Instruction.pushes ⟨op, []⟩ = 1 ∧
      op.isJump = false ∧ ¬ op.IsLoad ∧ Instruction.makes ⟨op, []⟩ = 0 := by
    rcases hop with rfl | rfl <;> exact ⟨rfl, rfl, rfl, by simp [Opcode.IsLoad], rfl⟩
  obtain ⟨hpops, hpushes, hjump, hload, hmakes⟩ := hshape
  obtain ⟨r, v, rfl, hstack, -⟩ := h.split_one hpops
  rw [turn_unary hop h.fetches hstack]
  have htop : [v].length = Instruction.pops ⟨op, []⟩ := hpops.symm
  refine causes_yielding fun w hw => compute htop hpushes hjump hload hmakes fun P _ => ?_
  have hyields := Value.yields_unary (P := P) op v
  rw [hw] at hyields
  exact hyields

theorem index (h : Poised l m m₁ frame pre region ⟨.index, []⟩) :
    Causes (turn nativeHost m) (Effect m₁ frame pre region ⟨.index, []⟩) := by
  obtain ⟨r, top, rfl, htop, -⟩ := h.split
  obtain ⟨container, key, rfl⟩ := List.length_eq_two.mp htop
  have hstack : m₁.stack = (pre ++ r ++ [container, key]).toArray := by
    rw [h.stack, List.append_assoc]
  rw [turn_index h.fetches hstack]
  refine causes_yielding fun v hv =>
    compute htop rfl rfl (by simp [Opcode.IsLoad]) rfl fun P hP => ?_
  have hyields := Value.yields_index (hP container (by simp)) key
  rw [hv] at hyields
  exact hyields

theorem array (h : Poised l m m₁ frame pre region ⟨.array, [n]⟩) :
    Causes (turn nativeHost m) (Effect m₁ frame pre region ⟨.array, [n]⟩) := by
  obtain ⟨r, top, rfl, htop, -⟩ := h.split
  obtain rfl : top.length = n := htop
  have hstack : m₁.stack = (pre ++ r ++ top).toArray := by rw [h.stack, List.append_assoc]
  rw [turn_array h.fetches hstack]
  exact causes_pushing (compute rfl rfl rfl (by simp [Opcode.IsLoad]) rfl fun P hP =>
    Value.every_array.mpr hP)

theorem hash (h : Poised l m m₁ frame pre region ⟨.hash, [2 * n]⟩) :
    Causes (turn nativeHost m) (Effect m₁ frame pre region ⟨.hash, [2 * n]⟩) := by
  obtain ⟨r, top, rfl, htop, -⟩ := h.split
  replace htop : top.length = 2 * n := htop
  rw [← htop] at h ⊢
  have hstack : m₁.stack = (pre ++ r ++ top).toArray := by rw [h.stack, List.append_assoc]
  rw [turn_hash h.fetches (by omega) hstack]
  refine causes_yielding fun v hv =>
    compute rfl rfl rfl (by simp [Opcode.IsLoad]) rfl fun P hP => ?_
  have hyields := Value.yields_hashOfPairs fun pair hpair => (of_mem_pairUp hP pair hpair).2
  rw [hv] at hyields
  exact hyields

theorem jump (hop : op.isJump = true) (h : Poised l m m₁ frame pre region ⟨op, [n]⟩) :
    Causes (turn nativeHost m) (Effect m₁ frame pre region ⟨op, [n]⟩) := by
  obtain ⟨callers, hframes⟩ := h.frames
  have hn : n ≤ frame.code.bytes.size := h.targets hop n (by simp)
  rcases Opcode.isJump_iff.mp hop with rfl | rfl
  · rw [turn_jump h.fetches hframes hn]
    have heffect : Effect m₁ frame pre (region ++ []) ⟨.jump, [n]⟩
        ({ m₁ with stack := (pre ++ region).toArray }.goTo n) := .jumps rfl rfl
    rw [List.append_nil, ← h.stack] at heffect
    exact causes_next heffect
  · obtain ⟨r, v, rfl, hstack, -⟩ := h.split_one rfl
    rw [turn_jumpNotTruthy h.fetches hframes hn hstack]
    by_cases htruthy : v.isTruthy
    · rw [if_pos htruthy]
      exact causes_next (.drops (.inr rfl))
    · rw [if_neg htruthy]
      exact causes_next (.jumps rfl rfl)

theorem setGlobal (hop : op = .setGlobal ∨ op = .assignGlobal)
    (h : Poised l m m₁ frame pre region ⟨op, [n]⟩) :
    Causes (turn nativeHost m) (Effect m₁ frame pre region ⟨op, [n]⟩) := by
  obtain ⟨r, v, rfl, hstack, -⟩ := h.split_one (by rcases hop with rfl | rfl <;> rfl)
  rw [turn_setGlobal hop h.fetches hstack]
  by_cases hn : n < m₁.config.globalsSize
  · rw [if_pos hn]
    exact causes_next (.setsGlobal hop)
  · rw [if_neg hn]
    exact causes_halt _

theorem setLocal (hop : op = .setLocal ∨ op = .assignLocal)
    (h : Poised l m m₁ frame pre region ⟨op, [n]⟩) (hn : n < l.locals) :
    Causes (turn nativeHost m) (Effect m₁ frame pre region ⟨op, [n]⟩) := by
  obtain ⟨callers, hframes⟩ := h.frames
  obtain ⟨r, v, rfl, hstack, hle⟩ := h.split_one (by rcases hop with rfl | rfl <;> rfl)
  have hslot : frame.base + n < (pre ++ r).length := by
    rw [List.length_append, h.base]
    omega
  have hset : (pre ++ r).set (frame.base + n) v = pre ++ r.set n v := by
    rw [h.base, List.set_append_right _ _ (Nat.le_add_right _ _), Nat.add_sub_cancel_left]
  rw [turn_setLocal hop h.fetches hframes hstack hslot, hset]
  exact causes_next (.setsLocal hop (by omega))

theorem closure {count : Nat} (h : Poised l m m₁ frame pre region ⟨.closure, [n, count]⟩) :
    Causes (turn nativeHost m) (Effect m₁ frame pre region ⟨.closure, [n, count]⟩) := by
  obtain ⟨r, top, rfl, htop, -⟩ := h.split
  obtain rfl : top.length = count := htop
  have hstack : m₁.stack = (pre ++ r ++ top).toArray := by rw [h.stack, List.append_assoc]
  by_cases hfunction : ∃ identity code, m₁.constants[n]? = some (.function identity code)
  · obtain ⟨identity, code, hconstant⟩ := hfunction
    rw [turn_closure h.fetches hconstant hstack]
    refine causes_pushing ?_
    have hpush : (pre ++ r).toArray.push (Value.closure m₁.nextIdentity code top) =
        (pre ++ (r ++ [Value.closure m₁.nextIdentity code top])).toArray := by
      rw [List.push_toArray, List.append_assoc]
    rw [hpush]
    exact .gives rfl rfl rfl (.closure hconstant)
  · have hturn : turn nativeHost m = .halt (.fault (.notAFunction n), m₁) := by
      rw [turn_of_fetches h.fetches]
      simp only [execute, makeClosure, List.getD_cons_zero, exec_bind, exec_get]
      cases hv : m₁.constants[n]? with
      | none => rfl
      | some v =>
        cases v with
        | function identity code => exact absurd ⟨identity, code, hv⟩ hfunction
        | null | boolean | integer | float | string | array | hash | builtin | closure => rfl
    rw [hturn]
    exact causes_halt _

theorem call (h : Poised l m m₁ frame pre region ⟨.call, [n]⟩) :
    Causes (turn nativeHost m) (Effect m₁ frame pre region ⟨.call, [n]⟩) := by
  obtain ⟨r, top, rfl, htop, -⟩ := h.split
  replace htop : top.length = n + 1 := htop
  obtain ⟨callee, args, rfl⟩ := List.exists_cons_of_length_eq_add_one htop
  obtain rfl : args.length = n := by simpa using htop
  have hstack : m₁.stack = (pre ++ r ++ callee :: args).toArray := by
    rw [h.stack, List.append_assoc]
  cases callee with
  | closure identity code free =>
    by_cases hcount : args.length = code.params
    · by_cases hdepth : m₁.calls.depth < m₁.config.maxFrames
      · rcases turn_call_closure h.fetches hstack hcount hdepth with ⟨-, hturn⟩ | ⟨-, m', hturn⟩
        · rw [hturn]
          -- below the locals of the callee lies the closure that is called
          have hvalues : pre ++ r ++ Value.closure identity code free :: args ++
              List.replicate (code.locals - args.length) Value.null =
                pre ++ r ++ [Value.closure identity code free] ++ callLocals code args := by
            simp [callLocals]
          rw [hvalues]
          exact causes_next (.enters hcount)
        · rw [hturn]
          exact causes_halt _
      · rw [turn_call_tooDeep h.fetches hstack hcount (Nat.not_lt.mp hdepth)]
        exact causes_halt _
    · rw [turn_call_wrongCount h.fetches hstack hcount]
      exact causes_halt _
  | builtin b =>
    rw [turn_call_builtin h.fetches hstack, b.run_call]
    cases hresult : b.evaluate args with
    | error fault => exact causes_halt _
    | ok v =>
      refine causes_pushing (compute rfl rfl rfl (by simp [Opcode.IsLoad]) rfl fun P hP => ?_)
      have hyields : Value.Yields P (b.evaluate args) :=
        b.yields_evaluate fun v hv => hP v (List.mem_cons_of_mem _ hv)
      rw [hresult] at hyields
      exact hyields
  | null | boolean | integer | float | string | array | hash | function =>
    rw [turn_call_notCallable (by simp) (by simp) h.fetches hstack]
    exact causes_halt _

/-- How a call is left, after the values `top` were taken. -/
theorem leave {r top : List Value} (h : Poised l m m₁ frame pre (r ++ top) i) {v : Value}
    (hv : Returns i top v) : Causes (leaving { m₁ with stack := (pre ++ r).toArray } v)
      (Effect m₁ frame pre (r ++ top) i) := by
  obtain ⟨callers, hframes⟩ := h.frames
  by_cases hcallers : callers = []
  · subst hcallers
    rw [leaving_main (m := { m₁ with stack := (pre ++ r).toArray }) hframes]
    exact causes_halt _
  · rw [leaving_call (m := { m₁ with stack := (pre ++ r).toArray }) hframes hcallers]
    refine causes_pushing ?_
    -- the closure that was called lies just below the locals
    have hstack : ((pre ++ r).toArray.shrink (frame.base - 1)).push v =
        (pre.dropLast ++ [v]).toArray := by
      have htake : (pre ++ r).take (pre.length - 1) = pre.dropLast := by
        rw [List.take_append_of_le_length (Nat.sub_le _ _), List.dropLast_eq_take]
      rw [h.base, ← htake]
      simp
    rw [hstack]
    exact .leaves hv (by rw [hframes]; exact hcallers)

theorem returnValue (h : Poised l m m₁ frame pre region ⟨.returnValue, []⟩) :
    Causes (turn nativeHost m) (Effect m₁ frame pre region ⟨.returnValue, []⟩) := by
  obtain ⟨r, v, rfl, hstack, -⟩ := h.split_one rfl
  rw [turn_returnValue h.fetches hstack]
  exact h.leave (.value v)

theorem ret (h : Poised l m m₁ frame pre region ⟨.ret, []⟩) :
    Causes (turn nativeHost m) (Effect m₁ frame pre region ⟨.ret, []⟩) := by
  rw [turn_ret h.fetches]
  have hleave : Causes (leaving { m₁ with stack := (pre ++ region).toArray } .null)
      (Effect m₁ frame pre (region ++ []) ⟨.ret, []⟩) :=
    leave (by rwa [List.append_nil]) .null
  rwa [List.append_nil, ← h.stack] at hleave

theorem simple (h : Poised l m m₁ frame pre region ⟨op, []⟩) (hop : op.operandWidths = [])
    (hself : op ≠ .currentClosure) :
    Causes (turn nativeHost m) (Effect m₁ frame pre region ⟨op, []⟩) := by
  cases op with
  | add | sub | mul | div | mod | equal | notEqual | greaterThan | greaterEqual =>
    exact h.binary (by simp [Opcode.IsBinary])
  | minus | bang => exact h.unary (by simp)
  | index => exact h.index
  | true =>
    rw [turn_boolean true h.fetches]
    exact h.fresh rfl rfl rfl (by simp [Opcode.IsLoad]) rfl fun P => Value.every_boolean _
  | false =>
    rw [turn_boolean false h.fetches]
    exact h.fresh rfl rfl rfl (by simp [Opcode.IsLoad]) rfl fun P => Value.every_boolean _
  | null =>
    rw [turn_null h.fetches]
    exact h.fresh rfl rfl rfl (by simp [Opcode.IsLoad]) rfl fun P => Value.every_null
  | pop =>
    obtain ⟨r, v, rfl, hstack, -⟩ := h.split_one rfl
    rw [turn_pop h.fetches hstack]
    exact causes_next (.drops (.inl rfl))
  | returnValue => exact h.returnValue
  | ret => exact h.ret
  | currentClosure => exact absurd rfl hself
  | constant | jump | jumpNotTruthy | getGlobal | setGlobal | assignGlobal | getLocal | setLocal
  | assignLocal | getBuiltin | getFree | array | hash | call | closure => cases hop

/-- A turn of proper code that goes on has the effect of its instruction. -/
theorem effect (h : Poised l m m₁ frame pre region i) (hproper : i.Proper l)
    {m' : Machine Console Value} (hturn : turn nativeHost m = .next m') :
    Effect m₁ frame pre region i m' := by
  obtain ⟨callers, hframes⟩ := h.frames
  refine (?_ : Causes (turn nativeHost m) (Effect m₁ frame pre region i)) m' hturn
  cases hproper with
  | constant => exact h.constant
  | closure => exact h.closure
  | global hop hn =>
    rcases hop with rfl | hop
    · rw [turn_getGlobal h.fetches]
      exact h.push rfl rfl rfl rfl (.getGlobal _)
    · exact h.setGlobal hop
  | slot hop hn =>
    rcases hop with rfl | hop
    · exact h.getLocal hn
    · exact h.setLocal hop hn
  | captured => exact h.getFree
  | builtin hb =>
    rw [turn_getBuiltin h.fetches hb]
    exact h.fresh rfl rfl rfl (by simp [Opcode.IsLoad]) rfl fun P => Value.every_builtin _
  | self =>
    rw [turn_currentClosure h.fetches hframes]
    exact h.push rfl rfl rfl rfl .currentClosure
  | array => exact h.array
  | hash => exact h.hash
  | call => exact h.call
  | jump target hop => exact h.jump hop
  | simple hop hself => exact h.simple hop hself

end Poised

/-! ### What is in the machine afterwards -/

namespace Effect

variable {m m' : Machine Console Value} {frame : Frame Value} {pre region : List Value}
  {i : Instruction}

theorem constants_eq (h : Effect m frame pre region i m') : m'.constants = m.constants := by
  cases h <;> rfl

/-- Only closures that are made are counted. -/
theorem nextIdentity_eq (h : Effect m frame pre region i m') :
    m'.nextIdentity = m.nextIdentity + i.makes := by
  cases h with
  | gives => rfl
  | drops hop => rcases hop with hop | hop <;> simp [Instruction.makes, hop]
  | jumps hop =>
    rcases Opcode.isJump_iff.mp hop with rfl | rfl <;> rfl
  | setsGlobal hop | setsLocal hop => rcases hop with rfl | rfl <;> rfl
  | enters => rfl
  | leaves hreturns => cases hreturns <;> rfl

/-- Globals are set by the instructions for them. -/
theorem globals_eq (h : Effect m frame pre region i m') : m'.globals = m.globals ∨
    ∃ r v op n, region = r ++ [v] ∧ i = ⟨op, [n]⟩ ∧ (op = .setGlobal ∨ op = .assignGlobal) ∧
      m'.globals = storeGlobal m.globals n v := by
  cases h with
  | @setsGlobal r v op n hop => exact .inr ⟨r, v, op, n, rfl, rfl, hop, rfl⟩
  | gives | drops | jumps | setsLocal | enters | leaves => exact .inl rfl

/-- A value on the stack was there before, it is null, or the instruction pushed it. -/
theorem mem_stack (h : Effect m frame pre region i m') {v : Value} (hv : v ∈ m'.stack) :
    v ∈ pre ++ region ∨ v = .null ∨ ∃ r top, region = r ++ top ∧ Gives m frame region i top v := by
  cases h with
  | @gives r top _ v' _ _ _ _ hgives =>
    simp only [List.mem_toArray, List.mem_append, List.mem_singleton] at hv ⊢
    rcases hv with hv | hv | rfl
    · exact .inl (.inl hv)
    · exact .inl (.inr (.inl hv))
    · exact .inr (.inr ⟨r, top, rfl, hgives⟩)
  | drops | setsGlobal | jumps =>
    replace hv : v ∈ (pre ++ _).toArray := hv
    simp only [List.mem_toArray, List.mem_append] at hv ⊢
    tauto
  | setsLocal =>
    simp only [List.mem_toArray, List.mem_append, List.mem_singleton] at hv ⊢
    rcases hv with hv | hv
    · exact .inl (.inl hv)
    · rcases List.mem_or_eq_of_mem_set hv with hv | rfl
      · exact .inl (.inr (.inl hv))
      · exact .inl (.inr (.inr rfl))
  | enters =>
    simp only [callLocals, List.mem_toArray, List.mem_append, List.mem_cons, List.mem_replicate,
      List.not_mem_nil, or_false] at hv ⊢
    tauto
  | leaves hreturns =>
    simp only [List.mem_toArray, List.mem_append, List.mem_singleton] at hv ⊢
    rcases hv with hv | rfl
    · exact .inl (.inl (List.dropLast_subset pre hv))
    · cases hreturns with
      | value => exact .inl (.inr (.inr (List.mem_singleton.mpr rfl)))
      | null => exact .inr (.inl rfl)

end Effect

end Machine

end Bytescript
