/-
The stack under the active calls.

`Standing` says where a call stands in its code and how high the stack above its base is there.
`Under` cuts the rest of the stack at the callers: for each of them there are its locals and
temporaries and, on top, the closure that it called. `Framed` puts both together. It is taken
relative to some outer calls, which are not looked at, and to the stack that they have: for a whole
run there are none, and for a single call they are its callers.

Main statements: `Framed.effect`, which gives the effect of a turn, and `Framed.turn`. A turn leaves
the outer calls and their stack alone, until the call above them ends, and it keeps what is known of
the calls by a property that `Lasts`.

Design notes: what is known of a call is a property of the instructions of its code and of the index
at which it stands among them, besides the frame and its part of the stack. `Stands` puts it
together with where the call stands.
-/
import Bytescript.Proofs.Effects

namespace Bytescript

/-! ### Code that is listed -/

/-- The code of a function consists of the instructions `is`. Their heights and jumps fit together,
and they use no more locals than the function has. -/
structure FunctionCode.Lists (f : FunctionCode) (is : List (Located Instruction)) : Prop where
  params : f.params ≤ f.locals
  bytes : f.code.bytes.toList = encodeAll is
  targets : TargetsFit 0 is
  compiled : ∃ l : Limits, l.locals = f.locals ∧ Compiled l is

theorem FunctionCode.Lists.decodeAt {f : FunctionCode} {is : List (Located Instruction)}
    (h : f.Lists is) {k : Nat} {i : Located Instruction} (hi : is[k]? = some i) :
    Instruction.decodeAt f.code.bytes (offsetAt is k) = some (.ok i.value) := by
  obtain ⟨l, -, hcompiled⟩ := h.compiled
  have hdecode := (Code.Has.of_bytes h.bytes h.targets).decodeAt hcompiled hi
  rwa [Nat.zero_add, Instruction.moved_zero] at hdecode

/-- The instructions of a checked function. -/
theorem FunctionCode.Checked.lists {pool : List Constant} {globals count : Nat} {f : FunctionCode}
    (h : f.Checked pool globals count) (hglobals : globals ≤ Scopes.globalLimit) :
    ∃ is, f.Lists is := by
  obtain ⟨is, hbytes, hbalanced, hproper, htargets⟩ := h.body
  refine ⟨is, h.params, hbytes, htargets, ⟨pool, globals, f.locals, count, true⟩, rfl, ?_⟩
  exact ⟨⟨hglobals, h.locals, Nat.le_succ_of_le h.captures⟩, hbalanced, hproper⟩

namespace Machine

/-- A call stands before the instruction at the index `k`, and `region` is what it has on the
stack: its locals and as many temporaries as the instructions before leave. -/
structure Standing (is : List (Located Instruction)) (k : Nat) (frame : Frame Value)
    (region : List Value) : Prop where
  lists : frame.closure.code.Lists is
  index_le : k ≤ is.length
  ip : frame.ip = offsetAt is k
  height : (region.length : Int) = frame.closure.code.locals + rise (is.take k)

namespace Standing

variable {is : List (Located Instruction)} {k : Nat} {frame : Frame Value}
  {region region' : List Value} {i : Located Instruction}

/-- A call begins with its locals. -/
theorem start {closure : Closure Value} (h : closure.code.Lists is) (base : Nat)
    (hregion : region.length = closure.code.locals) :
    Standing is 0 ⟨closure, 0, base⟩ region :=
  ⟨h, Nat.zero_le _, rfl, by rw [hregion]; simp⟩

/-- The call comes to the next instruction. -/
theorem advance (h : Standing is k frame region) (hi : is[k]? = some i)
    (hlength : region'.length + i.value.pops = region.length + i.value.pushes) :
    Standing is (k + 1) { frame with ip := offsetAt is (k + 1) } region' where
  lists := h.lists
  index_le := (List.getElem?_eq_some_iff.mp hi).1
  ip := rfl
  height := by
    have hheight := h.height
    rw [rise_take_succ hi]
    show (region'.length : Int) = frame.closure.code.locals + _
    omega

theorem drop {r : List Value} {v : Value} (h : Standing is k frame (r ++ [v]))
    (hi : is[k]? = some i) (hpops : i.value.pops = 1) (hpushes : i.value.pushes = 0)
    (hlength : region'.length = r.length) :
    Standing is (k + 1) { frame with ip := offsetAt is (k + 1) } region' := by
  refine h.advance hi ?_
  rw [hlength, hpops, hpushes, List.length_append, List.length_singleton]

/-- The call comes to the target of a jump. -/
theorem jump (h : Standing is k frame region) (hi : is[k]? = some i)
    (hjump : i.value.opcode.isJump = true) {n : Nat} (hn : i.value.operands = [n])
    (hlength : region'.length + i.value.taken = region.length) :
    ∃ k', k < k' ∧ n = offsetAt is k' ∧ Standing is k' { frame with ip := n } region' := by
  obtain ⟨l, -, hcompiled⟩ := h.lists.compiled
  obtain ⟨k', hlt, hle, hoperands, hrise⟩ := (hcompiled.balanced hi).target hjump
  obtain rfl : n = offsetAt is k' := by simpa [hn] using hoperands
  refine ⟨k', hlt, rfl, h.lists, hle, rfl, ?_⟩
  have hheight := h.height
  show (region'.length : Int) = frame.closure.code.locals + _
  omega

/-- An instruction leaves the locals in their place. -/
theorem locals_le {r top : List Value} (h : Standing is k frame (r ++ top)) (hi : is[k]? = some i)
    (htop : top.length ≤ i.value.pops) : frame.closure.code.locals ≤ r.length := by
  obtain ⟨l, -, hcompiled⟩ := h.lists.compiled
  have hpops := (hcompiled.balanced hi).pops
  have hheight := h.height
  rw [List.length_append] at hheight
  omega

/-- An instruction that sets a local sets one of the locals. -/
theorem slot_lt {op : Opcode} {n : Nat} {span : Span} (h : Standing is k frame region)
    (hi : is[k]? = some ⟨⟨op, [n]⟩, span⟩) (hop : op = .setLocal ∨ op = .assignLocal) :
    n < frame.closure.code.locals := by
  obtain ⟨l, hl, hcompiled⟩ := h.lists.compiled
  have hproper := hcompiled.proper _ (List.mem_of_getElem? hi)
  cases hproper with
  | slot _ hn => exact hl ▸ hn
  | constant | captured | builtin | array | hash | call => simp at hop
  | global hop' =>
    rcases hop with rfl | rfl <;> simp at hop'
  | jump _ hjump =>
    rcases hop with rfl | rfl <;> cases hjump

/-- The next instruction is the one before which the call stands. -/
theorem fetched (h : Standing is k frame region) {m m₁ : Machine Console Value}
    {callers : List (Frame Value)} (hframes : m.frames = frame :: callers) {j : Instruction}
    (hfetches : m.Fetches j m₁) : ∃ i, is[k]? = some i ∧ i.value = j := by
  obtain ⟨_, _, hframes', hdecode, -⟩ := hfetches
  rw [hframes] at hframes'
  obtain ⟨rfl, -⟩ := List.cons.inj hframes'
  rcases Nat.lt_or_ge k is.length with hk | hk
  · have hi := List.getElem?_eq_getElem hk
    have hdecode' := h.lists.decodeAt hi
    rw [← h.ip] at hdecode'
    exact ⟨is[k], hi, Except.ok.inj (Option.some.inj (hdecode'.symm.trans hdecode))⟩
  · -- behind the last instruction there is no code
    have hend : frame.code.bytes.size = frame.ip := by
      rw [← Array.length_toList, h.ip, offsetAt, List.take_of_length_le hk]
      exact congrArg List.length h.lists.bytes
    rw [Instruction.decodeAt, Array.getElem?_eq_none (Nat.le_of_eq hend)] at hdecode
    cases hdecode

/-- All that the next instruction needs is there. -/
theorem poised (h : Standing is k frame region) (hi : is[k]? = some i)
    {m : Machine Console Value} {callers : List (Frame Value)} {pre : List Value}
    (hframes : m.frames = frame :: callers) (hstack : m.stack = (pre ++ region).toArray)
    (hbase : frame.base = pre.length) :
    ∃ l, i.value.Proper l ∧ Poised l m (m.goTo (offsetAt is (k + 1)))
      { frame with ip := offsetAt is (k + 1) } pre region i.value := by
  obtain ⟨l, hlocals, hcompiled⟩ := h.lists.compiled
  have hsettled := hcompiled.balanced hi
  have hdecode := h.lists.decodeAt hi
  rw [← h.ip] at hdecode
  refine ⟨l, hcompiled.proper i (List.mem_of_getElem? hi),
    ⟨frame, callers, hframes, hdecode, by rw [offsetAt_succ hi, h.ip]⟩, ⟨callers, ?_⟩, hstack,
    hbase, ?_, fun hjump t ht => ?_⟩
  · rw [frames_goTo, hframes]
    rfl
  · have hpops := hsettled.pops
    have hheight := h.height
    omega
  · obtain ⟨k', -, -, hoperands, -⟩ := hsettled.target hjump
    rw [hoperands, List.mem_singleton] at ht
    have hle := offsetAt_le is k'
    have hsize : frame.code.bytes.size = (encodeAll is).length := by
      rw [← Array.length_toList]
      exact congrArg List.length h.lists.bytes
    show t ≤ frame.code.bytes.size
    omega

end Standing

/-- The call stands somewhere in its code, and `Q` holds of it there. -/
def Stands (Q : List (Located Instruction) → Nat → Frame Value → List Value → Prop)
    (frame : Frame Value) (region : List Value) : Prop :=
  ∃ is k, Standing is k frame region ∧ Q is k frame region

/-! ### Active calls -/

/-- What lies on the stack under a call. Each caller has its locals and temporaries there, and the
closure that it called. When the call ends, the caller goes on with any value on top of them; `Q`
holds of it then. The outermost callers are `outer`, and `floor` is what lies on the stack under the
call that they made. -/
inductive Under (Q : Frame Value → List Value → Prop) (outer : List (Frame Value))
    (floor : List Value) : List (Frame Value) → List Value → Prop where
  | here : Under Q outer floor outer floor
  | caller {frame : Frame Value} {callers : List (Frame Value)} {pre region : List Value}
      {callee : Value} : Under Q outer floor callers pre → frame.base = pre.length →
      frame.closure.code.locals ≤ region.length → (∀ v, Q frame (region ++ [v])) →
      Under Q outer floor (frame :: callers) (pre ++ region ++ [callee])

/-- The stack is cut at the active calls above `outer`, and `Q` holds of them. The innermost one is
`frame`, and `region` is what it has on the stack. -/
structure Framed (Q : Frame Value → List Value → Prop) (outer : List (Frame Value))
    (floor : List Value) (m : Machine Console Value) (frame : Frame Value)
    (callers : List (Frame Value)) (pre region : List Value) : Prop where
  frames : m.frames = frame :: callers
  stack : m.stack = (pre ++ region).toArray
  under : Under Q outer floor callers pre
  base : frame.base = pre.length
  running : Q frame region

/-- There are active calls above `outer`, and `Q` holds of them. -/
def Rests (Q : Frame Value → List Value → Prop) (outer : List (Frame Value))
    (floor : List Value) (m : Machine Console Value) : Prop :=
  ∃ frame callers pre region, Framed Q outer floor m frame callers pre region

/-- The call that `outer` made ends in the turn from `m` to `m'`: its value takes the place of the
closure that was called, on top of `floor`. -/
def Ends (outer : List (Frame Value)) (floor : List Value) (m m' : Machine Console Value) : Prop :=
  outer ≠ [] ∧ ∃ i m₁ r top v, m.Fetches i m₁ ∧ Returns i top v ∧
    m.stack = (floor ++ (r ++ top)).toArray ∧ m'.frames = outer ∧
    m'.stack = (floor.dropLast ++ [v]).toArray

/-- What holds of a call by `Q` still holds after a turn of `m`, whatever the turn does: there is
one condition for each effect. -/
structure Lasts (Q : List (Located Instruction) → Nat → Frame Value → List Value → Prop)
    (m : Machine Console Value) : Prop where
  gives : ∀ {is k frame r top i v}, Standing is k frame (r ++ top) → Q is k frame (r ++ top) →
    is[k]? = some i → top.length = i.value.pops → Gives m frame (r ++ top) i.value top v →
    Q is (k + 1) { frame with ip := offsetAt is (k + 1) } (r ++ [v])
  drops : ∀ {is k frame r v i}, Standing is k frame (r ++ [v]) → Q is k frame (r ++ [v]) →
    is[k]? = some i → i.value.pops = 1 → i.value.pushes = 0 →
    Q is (k + 1) { frame with ip := offsetAt is (k + 1) } r
  jumps : ∀ {is k k' frame r top i}, Standing is k frame (r ++ top) → Q is k frame (r ++ top) →
    is[k]? = some i → i.value.opcode.isJump = true → i.value.operands = [offsetAt is k'] →
    k < k' → top.length = i.value.taken → Q is k' { frame with ip := offsetAt is k' } r
  setsLocal : ∀ {is k frame r v op n span}, Standing is k frame (r ++ [v]) →
    Q is k frame (r ++ [v]) → is[k]? = some ⟨⟨op, [n]⟩, span⟩ → op = .setLocal ∨ op = .assignLocal →
    n < r.length → Q is (k + 1) { frame with ip := offsetAt is (k + 1) } (r.set n v)
  calls : ∀ {is k frame r callee args span}, Standing is k frame (r ++ callee :: args) →
    Q is k frame (r ++ callee :: args) → is[k]? = some ⟨⟨.call, [args.length]⟩, span⟩ →
    ∀ v, Q is (k + 1) { frame with ip := offsetAt is (k + 1) } (r ++ [v])
  enters : ∀ {args identity code free frame callers} {base : Nat}, m.frames = frame :: callers →
    frame.base ≤ base → Value.closure identity code free ∈ m.stack → args.length = code.params →
    Stands Q ⟨⟨identity, code, free⟩, 0, base + 1⟩ (callLocals code args)

section

variable {Q : Frame Value → List Value → Prop} {outer callers : List (Frame Value)}
  {floor pre region top : List Value} {m m' : Machine Console Value} {frame : Frame Value}

/-- The outer calls lie below the others, and so does their stack. -/
theorem Under.exists_append (h : Under Q outer floor callers pre) :
    ∃ inner rest, callers = inner ++ outer ∧ pre = floor ++ rest := by
  induction h with
  | here => exact ⟨[], [], rfl, (List.append_nil _).symm⟩
  | @caller frame callers pre region callee _ _ _ _ ih =>
    obtain ⟨inner, rest, rfl, rfl⟩ := ih
    exact ⟨frame :: inner, rest ++ region ++ [callee], rfl, by simp⟩

/-- The locals of callers lie further down. -/
theorem Under.locals_lt (h : Under Q [] [] callers pre) (hframe : frame ∈ callers) :
    frame.base + frame.closure.code.locals < pre.length := by
  induction h with
  | here => simp at hframe
  | caller _ hbase hlocals _ ih =>
    simp only [List.length_append, List.length_singleton]
    rcases List.mem_cons.mp hframe with rfl | hframe
    · omega
    · have := ih hframe
      omega

theorem Under.mono {Q' : Frame Value → List Value → Prop} (h : Under Q outer floor callers pre)
    (hQ : ∀ frame region, Q frame region → Q' frame region) : Under Q' outer floor callers pre := by
  induction h with
  | here => exact .here
  | caller _ hbase hlocals hregion ih =>
    exact .caller ih hbase hlocals fun v => hQ _ _ (hregion v)

/-- `Q` holds of all callers. -/
theorem Under.of_mem (h : Under Q [] [] callers pre) (hframe : frame ∈ callers) :
    ∃ region, Q frame region := by
  induction h with
  | here => simp at hframe
  | caller _ _ _ hregion ih =>
    rcases List.mem_cons.mp hframe with rfl | hframe
    · exact ⟨_, hregion .null⟩
    · exact ih hframe

/-- A caller goes on behind the call, with its value. -/
theorem Under.return (h : Under Q outer floor callers pre) (hcallers : m'.frames = callers)
    {v : Value} (hstack : m'.stack = (pre.dropLast ++ [v]).toArray) :
    (callers = outer ∧ pre = floor) ∨ Rests Q outer floor m' := by
  cases h with
  | here => exact .inl ⟨rfl, rfl⟩
  | @caller frame callers pre region callee hunder hbase _ hregion =>
    rw [List.dropLast_concat, List.append_assoc] at hstack
    exact .inr ⟨frame, callers, pre, region ++ [v], hcallers, hstack, hunder, hbase, hregion v⟩

theorem Gives.of_goTo {n : Nat} {i : Instruction} {top : List Value} {v : Value}
    (h : Gives (m.goTo n) { frame with ip := n } region i top v) :
    Gives m frame region i top v := by
  cases h with
  | constant hv => exact .constant hv
  | getGlobal n => exact .getGlobal n
  | getLocal hv => exact .getLocal hv
  | getFree hv => exact .getFree hv
  | currentClosure => exact .currentClosure
  | closure hv => exact .closure hv
  | computed hload hv => exact .computed hload hv

/-- The effect of a turn on a call that stands in its code. -/
theorem Framed.effect {is : List (Located Instruction)} {k : Nat}
    (h : Framed Q outer floor m frame callers pre region) (hstanding : Standing is k frame region)
    (hturn : Machine.turn nativeHost m = .next m') :
    ∃ i, is[k]? = some i ∧ m.Fetches i.value (m.goTo (offsetAt is (k + 1))) ∧
      Effect (m.goTo (offsetAt is (k + 1))) { frame with ip := offsetAt is (k + 1) } pre region
        i.value m' := by
  obtain ⟨i, hi⟩ := Passage.exists_next hturn h.frames hstanding.lists.bytes hstanding.ip
  obtain ⟨l, hproper, hpoised⟩ := hstanding.poised hi h.frames h.stack h.base
  exact ⟨i, hi, hpoised.fetches, hpoised.effect hproper hturn⟩

/-- A turn keeps what holds of all active calls above `outer`, or it ends the last of them. -/
theorem Framed.turn {Q : List (Located Instruction) → Nat → Frame Value → List Value → Prop}
    (h : Framed (Stands Q) outer floor m frame callers pre region) (hQ : Lasts Q m)
    (hturn : Machine.turn nativeHost m = .next m') :
    Rests (Stands Q) outer floor m' ∨ callers = outer ∧ Ends outer floor m m' := by
  obtain ⟨is, k, hstanding, hrunning⟩ := h.running
  obtain ⟨i, hi, hfetches, heffect⟩ := h.effect hstanding hturn
  have hframes : (m.goTo (offsetAt is (k + 1))).frames =
      { frame with ip := offsetAt is (k + 1) } :: callers := by
    rw [frames_goTo, h.frames]
    rfl
  have hstack := h.stack
  obtain ⟨⟨op, operands⟩, span⟩ := i
  generalize hm₁ : m.goTo (offsetAt is (k + 1)) = m₁ at hfetches heffect hframes
  cases heffect with
  | gives htop hpushes hjump hgives =>
    rw [← hm₁] at hgives
    refine .inl ⟨_, callers, pre, _, hframes, rfl, h.under, h.base, is, k + 1,
      hstanding.advance hi ?_, hQ.gives hstanding hrunning hi htop hgives.of_goTo⟩
    rw [hpushes, ← htop]
    simp only [List.length_append, List.length_singleton]
    omega
  | @drops r v _ _ hop =>
    have hone : Instruction.pops ⟨op, operands⟩ = 1 ∧ Instruction.pushes ⟨op, operands⟩ = 0 := by
      rcases hop with rfl | rfl <;> exact ⟨rfl, rfl⟩
    exact .inl ⟨_, callers, pre, r, hframes, rfl, h.under, h.base, is, k + 1,
      hstanding.drop hi hone.1 hone.2 rfl, hQ.drops hstanding hrunning hi hone.1 hone.2⟩
  | @jumps r top op n hop htop =>
    have hlength : r.length + Instruction.taken ⟨op, [n]⟩ = (r ++ top).length := by
      rw [List.length_append, htop]
    obtain ⟨k', hlt, rfl, hstanding'⟩ := hstanding.jump hi hop rfl hlength
    refine .inl ⟨{ frame with ip := offsetAt is k' }, callers, pre, r, ?_, rfl, h.under, h.base, is,
      k', hstanding', hQ.jumps hstanding hrunning hi hop rfl hlt htop⟩
    rw [frames_goTo]
    exact congrArg (List.modifyHead ({ · with ip := offsetAt is k' })) hframes
  | @setsGlobal r v op n hop =>
    have hone : Instruction.pops ⟨op, [n]⟩ = 1 ∧ Instruction.pushes ⟨op, [n]⟩ = 0 := by
      rcases hop with rfl | rfl <;> exact ⟨rfl, rfl⟩
    exact .inl ⟨_, callers, pre, r, hframes, rfl, h.under, h.base, is, k + 1,
      hstanding.drop hi hone.1 hone.2 rfl, hQ.drops hstanding hrunning hi hone.1 hone.2⟩
  | @setsLocal r v op n hop hn =>
    have hone : Instruction.pops ⟨op, [n]⟩ = 1 ∧ Instruction.pushes ⟨op, [n]⟩ = 0 := by
      rcases hop with rfl | rfl <;> exact ⟨rfl, rfl⟩
    exact .inl ⟨_, callers, pre, _, hframes, rfl, h.under, h.base, is, k + 1,
      hstanding.drop hi hone.1 hone.2 List.length_set,
      hQ.setsLocal hstanding hrunning hi hop hn⟩
  | @enters r args free identity code hcount =>
    -- the caller waits behind its call, for whatever value comes back
    have hcallee : Value.closure identity code free ∈ m.stack := by simp [hstack]
    have hlocals := hstanding.locals_le hi (by simp [Instruction.pops])
    have hbase : frame.base ≤ (pre ++ r).length := by
      rw [h.base, List.length_append]
      exact Nat.le_add_right _ _
    refine .inl ⟨_, _, _, _, congrArg (_ :: ·) hframes, rfl,
      .caller h.under h.base hlocals fun v => ?_, ?_, hQ.enters h.frames hbase hcallee hcount⟩
    · refine ⟨is, k + 1, hstanding.advance hi ?_, hQ.calls hstanding hrunning hi v⟩
      simp [Instruction.pops, Instruction.pushes]
      omega
    · simp [Nat.add_assoc]
  | @leaves r top _ v hv hcallers =>
    have hpop : m₁.calls.pop.frames = callers := congrArg List.tail hframes
    -- the call was the last one above the outer ones, or its caller goes on with the value
    have hreturn : (callers = outer ∧ pre = floor) ∨ Rests (Stands Q) outer floor
        { m₁ with stack := (pre.dropLast ++ [v]).toArray, calls := m₁.calls.pop } :=
      h.under.return hpop rfl
    rcases hreturn with ⟨rfl, rfl⟩ | hrests
    · have hne : callers ≠ [] := by rwa [hframes] at hcallers
      exact .inr ⟨rfl, hne, _, m₁, r, top, v, hfetches, hv, hstack, hpop, rfl⟩
    · exact .inl hrests

/-- The locals of an active call lie below what an instruction takes. -/
theorem Framed.locals_le {is : List (Located Instruction)} {k : Nat}
    (h : Framed Q [] [] m frame callers pre (region ++ top))
    (hstanding : Standing is k frame (region ++ top)) {i : Located Instruction}
    (hi : is[k]? = some i) (htop : top.length ≤ i.value.pops) {f : Frame Value}
    (hf : f ∈ m.frames) : f.base + f.closure.code.locals ≤ (pre ++ region).length := by
  have hlocals := hstanding.locals_le hi htop
  rw [h.frames] at hf
  rw [List.length_append]
  rcases List.mem_cons.mp hf with rfl | hf
  · have := h.base
    omega
  · have := h.under.locals_lt hf
    omega

/-- Calls above `outer` are more calls than those. -/
theorem Rests.length_lt (h : Rests Q outer floor m) : outer.length < m.frames.length := by
  obtain ⟨frame, callers, pre, region, h⟩ := h
  obtain ⟨inner, -, rfl, -⟩ := h.under.exists_append
  rw [h.frames, List.length_cons, List.length_append]
  omega

end

end Machine

end Bytescript
