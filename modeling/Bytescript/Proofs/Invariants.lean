/-
What every run keeps, whatever the code.

* `Machine.Steady` — what a property of machines must survive so that no instruction can break it
  that keeps the calls as they are: pushes, cuts of the stack and stores;
* `Machine.Stable` — what it must survive besides for the other instructions: moves in the code,
  calls and returns;
* `Machine.Stable.keeps_execute` — every instruction keeps such a property, whether it fails or not,
  if the host does not leave `P` and `C` (`Host.Keeps`);
* `Machine.Stable.of_run`, `Machine.Stable.of_reaches` — so every run keeps it;
* `Machine.Holds` — the values satisfy `P`, the closures that run satisfy `C`, the constants are
  those of the beginning and the calls stay within their limit.

Design notes: nothing is assumed about the code, so this speaks about hand-made code and about
closures that were compiled with other constants too. `Keeps` is closed under the sequence of
actions, so that an instruction is looked at action by action.
-/
import Bytescript.Proofs.Layout
import Bytescript.Proofs.Turn

namespace Bytescript

variable {S V α β : Type}

/-! ### Hosts -/

/-- Whatever the state of the host, the answer satisfies `Q`. -/
def Host.Answers (Q : α → Prop) (question : StateM S α) : Prop :=
  ∀ s, Q (question.run s).1

/-- Whatever the state of the host, the answer satisfies `Q` if there is one. -/
def Host.TryAnswers (Q : α → Prop) (question : ExceptT Fault (StateM S) α) : Prop :=
  ∀ s a, (question.run.run s).1 = .ok a → Q a

/-- The host makes values in `P` of values in `P`, and the closures among them are in `C`. -/
structure Host.Keeps (host : Host S V) (P : V → Prop) (C : Closure V → Prop) : Prop where
  binary : ∀ {op : Opcode} {a b : V}, P a → P b → TryAnswers P (host.binary op a b)
  unary : ∀ {op : Opcode} {a : V}, P a → TryAnswers P (host.unary op a)
  boolean : ∀ b, Answers P (host.boolean b)
  null : Answers P host.null
  array : ∀ {items : List V}, (∀ v ∈ items, P v) → Answers P (host.array items)
  hash : ∀ {pairs : List (V × V)}, (∀ pair ∈ pairs, P pair.1 ∧ P pair.2) →
    TryAnswers P (host.hash pairs)
  index : ∀ {container key : V}, P container → P key → TryAnswers P (host.index container key)
  callBuiltin? : ∀ {callee : V} {args : List V}, P callee → (∀ v ∈ args, P v) →
    TryAnswers (fun result => ∀ v, result = some v → P v) (host.callBuiltin? callee args)
  builtin : ∀ i, TryAnswers P (host.builtin i)
  function? : ∀ {v : V}, P v → Answers (fun result => ∀ code, result = some code →
    ∀ identity free, (∀ w ∈ free, P w) → C ⟨identity, code, free⟩) (host.function? v)
  ofClosure : ∀ {c : Closure V}, C c → Answers P (host.ofClosure c)
  closure? : ∀ {v : V}, P v → Answers (fun result => ∀ c, result = some c → C c) (host.closure? v)
  free : ∀ {c : Closure V}, C c → ∀ v ∈ c.free, P v

/-- What is true of all values is kept by every host. -/
theorem Host.keeps_true (host : Host S V) :
    host.Keeps (fun _ => True) (fun _ => True) where
  binary _ _ _ _ _ := trivial
  unary _ _ _ _ := trivial
  boolean _ _ := trivial
  null _ := trivial
  array _ _ := trivial
  hash _ _ _ _ := trivial
  index _ _ _ _ _ := trivial
  callBuiltin? _ _ _ _ _ _ _ := trivial
  builtin _ _ _ _ := trivial
  function? _ _ _ _ _ _ _ := trivial
  ofClosure _ _ := trivial
  closure? _ _ _ _ := trivial
  free _ _ _ := trivial

/-- The opcodes after which a machine may go on elsewhere: in another place of the code, or in
another call. -/
def Opcode.transfers : Opcode → Bool
  | .jump | .jumpNotTruthy | .call | .returnValue | .ret => Bool.true
  | _ => Bool.false

namespace Machine

/-! ### Actions -/

/-- The action keeps the machine in `I`, also when it fails, and its result satisfies `Q`. -/
def Keeps (I : Machine S V → Prop) (Q : α → Prop) (action : MachineM S V α) : Prop :=
  ∀ m, I m → I (exec action m).2 ∧ ∀ a, (exec action m).1 = .ok a → Q a

namespace Keeps

variable {I : Machine S V → Prop} {Q : α → Prop} {Q' : β → Prop}

protected theorem bind {x : MachineM S V α} {f : α → MachineM S V β} (h : Keeps I Q x)
    (hf : ∀ a, Q a → Keeps I Q' (f a)) : Keeps I Q' (x >>= f) := by
  intro m hm
  obtain ⟨hkeeps, hresult⟩ := h m hm
  rw [exec_bind]
  generalize exec x m = result at hkeeps hresult ⊢
  rcases result with ⟨fault | a, m'⟩
  · exact ⟨hkeeps, fun _ h => by cases h⟩
  · exact hf a (hresult a rfl) m' hkeeps

protected theorem pure {a : α} (ha : Q a) : Keeps I Q (pure a) :=
  fun _ hm => ⟨hm, fun _ h => by cases h; exact ha⟩

protected theorem throw (fault : Fault) : Keeps I Q (throw fault) :=
  fun _ hm => ⟨hm, fun _ h => by cases h⟩

/-- An action whose result is not looked at. -/
theorem done {x : MachineM S V α} (h : Keeps I Q x) (b : β) :
    Keeps I (fun _ => True) (x >>= fun _ => Pure.pure b) :=
  h.bind fun _ _ => .pure trivial

theorem get : Keeps I I get :=
  fun _ hm => ⟨hm, fun _ h => by cases h; exact hm⟩

theorem modify {f : Machine S V → Machine S V} (h : ∀ m, I m → I (f m)) :
    Keeps I (fun _ => True) (modify f) :=
  fun m hm => ⟨h m hm, fun _ _ => trivial⟩

/-- An action that begins with a look at the running frame. -/
theorem currentFrame_bind {Q : α → Prop} {f : Frame V → MachineM S V α}
    (h : ∀ m frame callers, I m → m.frames = frame :: callers →
      I (exec (f frame) m).2 ∧ ∀ a, (exec (f frame) m).1 = .ok a → Q a) :
    Keeps I Q (currentFrame >>= f) := by
  intro m hm
  cases hframes : m.frames with
  | nil =>
    rw [exec_bind, exec_currentFrame_none hframes]
    exact ⟨hm, fun _ h => by cases h⟩
  | cons frame callers =>
    rw [exec_bind, exec_currentFrame hframes]
    exact h m frame callers hm hframes

end Keeps

/-- Nulls are pushed without a look at the calls, and nothing is popped. -/
theorem calls_pushNulls (host : Host S V) (count : Nat) (m : Machine S V) :
    (exec (pushNulls host count) m).2.calls = m.calls ∧
      (exec (pushNulls host count) m).2.config = m.config ∧
      m.stack.size ≤ (exec (pushNulls host count) m).2.stack.size := by
  induction count generalizing m with
  | zero => exact ⟨rfl, rfl, Nat.le_refl _⟩
  | succ count ih =>
    rw [pushNulls, exec_bind, exec_ask]
    dsimp only
    rw [exec_bind, exec_push]
    by_cases hroom : m.stack.size < m.config.stackSize
    · rw [if_pos hroom]
      obtain ⟨hcalls, hconfig, hsize⟩ := ih
        { m with host := (host.null.run m.host).2, stack := m.stack.push (host.null.run m.host).1 }
      refine ⟨hcalls, hconfig, Nat.le_trans ?_ hsize⟩
      rw [Array.size_push]
      exact Nat.le_succ _
    · rw [if_neg hroom]
      exact ⟨rfl, rfl, Nat.le_refl _⟩

/-- A call of a value that is no closure. It lies at `slot`, and its arguments reach up to `size`. -/
def callBuiltin (host : Host S V) (callee : V) (slot size : Nat) : MachineM S V Unit := do
  let args := ((← get).stack.extract (slot + 1) size).toList
  match ← tryAsk (host.callBuiltin? callee args) with
  | some v =>
    modify fun m => { m with stack := m.stack.shrink slot }
    push v
  | none => throw (.notCallable (host.typeName callee))

theorem of_mem_pairUp {P : V → Prop} {values : List V} (h : ∀ v ∈ values, P v) :
    ∀ pair ∈ pairUp values, P pair.1 ∧ P pair.2 := by
  fun_induction pairUp values with
  | case1 key value rest ih =>
    intro pair hpair
    rcases List.mem_cons.mp hpair with rfl | hpair
    · exact ⟨h key (by simp), h value (by simp)⟩
    · exact ih (fun v hv => h v (by simp [hv])) pair hpair
  | case2 => simp

/-- The property `I` is kept by every change that a machine makes within a call, as long as the values
that come in satisfy `P`; what is in a machine satisfies it, and the closures that run satisfy
`C`. -/
structure Steady (I : Machine S V → Prop) (P : V → Prop) (C : Closure V → Prop) : Prop where
  -- What is found in a machine.
  constants : ∀ {m : Machine S V}, I m → ∀ v ∈ m.constants, P v
  values : ∀ {m : Machine S V}, I m → ∀ v ∈ m.stack, P v
  globals : ∀ {m : Machine S V}, I m → ∀ v, some v ∈ m.globals → P v
  closures : ∀ {m : Machine S V}, I m → ∀ frame ∈ m.frames, C frame.closure
  -- How a machine changes.
  host : ∀ {m : Machine S V} {host : S}, I m → I { m with host }
  identity : ∀ {m : Machine S V} {nextIdentity : Nat}, I m → I { m with nextIdentity }
  lastPopped : ∀ {m : Machine S V} {v : V}, I m → P v → I { m with lastPopped := some v }
  pushes : ∀ {m : Machine S V} {v : V}, I m → P v → m.stack.size < m.config.stackSize →
    I { m with stack := m.stack.push v }
  cuts : ∀ {m : Machine S V} {stack : Array V}, I m → stack.toList <+: m.stack.toList →
    I { m with stack }
  sets : ∀ {m : Machine S V} {v : V} {slot : Nat}, I m → P v →
    I { m with stack := m.stack.setIfInBounds slot v }
  stores : ∀ {m : Machine S V} {v : V} {i : Nat}, I m → P v → i < m.config.globalsSize →
    I { m with globals := Machine.storeGlobal m.globals i v }

/-- The property `I` is kept by every change that a machine makes. The locals of a call that begins
are on the stack, above the closure that is called. -/
structure Stable (I : Machine S V → Prop) (P : V → Prop) (C : Closure V → Prop) : Prop
    extends Steady I P C where
  moves : ∀ {m : Machine S V} {frame : Frame V} {callers : List (Frame V)} {ip : Nat}, I m →
    m.frames = frame :: callers → ip ≤ frame.code.bytes.size → I (m.goTo ip)
  enters : ∀ {m : Machine S V} {closure : Closure V} {base : Nat}, I m → C closure →
    m.calls.depth < m.config.maxFrames → 0 < base → base ≤ m.stack.size →
    I { m with calls := m.calls.push ⟨closure, 0, base⟩ }
  leaves : ∀ {m : Machine S V}, I m → I { m with calls := m.calls.pop }

namespace Steady

variable {I : Machine S V → Prop} {P : V → Prop} {C : Closure V → Prop} {host : Host S V}
  (hI : Steady I P C)
include hI

theorem shrink {m : Machine S V} (hm : I m) (size : Nat) :
    I { m with stack := m.stack.shrink size } := by
  refine hI.cuts hm ?_
  rw [Array.toList_shrink]
  exact List.take_prefix _ _

/-- Values that are taken out of the stack. -/
theorem of_mem_extract {m : Machine S V} (hm : I m) {start stop : Nat} :
    ∀ v ∈ (m.stack.extract start stop).toList, P v := by
  intro v hv
  rw [Array.toList_extract] at hv
  exact hI.values hm v (Array.mem_def.mpr (List.mem_of_mem_drop (List.mem_of_mem_take hv)))

/-! ### The stack, globals and locals -/

theorem keeps_ask {Q : α → Prop} {question : StateM S α} (h : Host.Answers Q question) :
    Keeps I Q (ask question) := by
  intro m hm
  rw [exec_ask]
  exact ⟨hI.host hm, fun a ha => by cases ha; exact h m.host⟩

theorem keeps_tryAsk {Q : α → Prop} {question : ExceptT Fault (StateM S) α}
    (h : Host.TryAnswers Q question) : Keeps I Q (tryAsk question) := by
  intro m hm
  rw [exec_tryAsk]
  exact ⟨hI.host hm, h m.host⟩

theorem keeps_push {v : V} (hv : P v) : Keeps I (fun _ => True) (push v) := by
  intro m hm
  rw [exec_push]
  by_cases hroom : m.stack.size < m.config.stackSize
  · rw [if_pos hroom]
    exact ⟨hI.pushes hm hv hroom, fun _ _ => trivial⟩
  · rw [if_neg hroom]
    exact ⟨hm, fun _ _ => trivial⟩

theorem keeps_pop : Keeps I P pop := by
  refine Keeps.get.bind fun m hm => ?_
  cases hback : m.stack.back? with
  | none => exact .throw _
  | some v =>
    refine (Keeps.modify fun m' hm' => hI.cuts hm' ?_).bind fun _ _ => .pure ?_
    · rw [Array.toList_pop]
      exact List.dropLast_prefix _
    · exact hI.values hm v (Array.mem_of_back? hback)

theorem keeps_take (count : Nat) : Keeps I (fun values => ∀ v ∈ values, P v) (take count) := by
  refine Keeps.get.bind fun m _ => ?_
  dsimp only
  split
  · refine Keeps.get.bind fun m' hm' => (Keeps.modify fun m'' hm'' => hI.shrink hm'' _).bind
      fun _ _ => .pure (hI.of_mem_extract hm')
  · exact .throw _

theorem keeps_currentFrame : Keeps I (fun frame => C frame.closure) currentFrame := by
  refine Keeps.get.bind fun m hm => ?_
  cases hframes : m.frames with
  | nil => exact .throw _
  | cons frame callers => exact .pure (hI.closures hm frame (by simp [hframes]))

theorem keeps_localSlot (i : Nat) : Keeps I (fun _ => True) (localSlot i) := by
  refine hI.keeps_currentFrame.bind fun frame _ => Keeps.get.bind fun m _ => ?_
  split
  · exact .pure trivial
  · exact .throw _

theorem keeps_getLocal (i : Nat) : Keeps I (fun _ => True) (getLocal i) := by
  refine (hI.keeps_localSlot i).bind fun slot _ => Keeps.get.bind fun m hm => ?_
  cases hslot : m.stack[slot]? with
  | none => exact .throw _
  | some v => exact hI.keeps_push (hI.values hm v (Array.mem_of_getElem? hslot))

theorem keeps_setLocal (i : Nat) : Keeps I (fun _ => True) (setLocal i) :=
  hI.keeps_pop.bind fun _ hv => (hI.keeps_localSlot i).bind fun _ _ =>
    Keeps.modify fun _ hm => hI.sets hm hv

theorem keeps_setGlobal (i : Nat) : Keeps I (fun _ => True) (setGlobal i) := by
  refine hI.keeps_pop.bind fun v hv m hm => ?_
  rw [exec_bind, exec_get]
  dsimp only
  split
  · next hi => exact ⟨hI.stores hm hv hi, fun _ _ => trivial⟩
  · exact ⟨hm, fun _ _ => trivial⟩

section

variable (hhost : host.Keeps P C)
include hhost

theorem keeps_getGlobal (i : Nat) : Keeps I (fun _ => True) (getGlobal host i) := by
  refine Keeps.get.bind fun m hm => ?_
  split
  · next v hglobal => exact hI.keeps_push (hI.globals hm v (Array.mem_of_getElem? hglobal))
  · exact (hI.keeps_ask hhost.null).bind fun v hv => hI.keeps_push hv

theorem keeps_pushNulls (count : Nat) : Keeps I (fun _ => True) (pushNulls host count) := by
  induction count with
  | zero => exact .pure trivial
  | succ count ih =>
    exact (hI.keeps_ask hhost.null).bind fun v hv => (hI.keeps_push hv).bind fun _ _ => ih

theorem keeps_callBuiltin {callee : V} (hcallee : P callee) (slot size : Nat) :
    Keeps I (fun _ => True) (callBuiltin host callee slot size) := by
  refine Keeps.get.bind fun m hm => ?_
  refine (hI.keeps_tryAsk (hhost.callBuiltin? hcallee (hI.of_mem_extract hm))).bind fun v? hv => ?_
  cases v? with
  | none => exact .throw _
  | some v =>
    exact (Keeps.modify fun _ hm => hI.shrink hm _).bind fun _ _ => hI.keeps_push (hv v rfl)

theorem keeps_makeClosure (i count : Nat) :
    Keeps I (fun _ => True) (makeClosure host i count) := by
  refine Keeps.get.bind fun m hm => ?_
  cases hconstant : m.constants[i]? with
  | none => exact .throw _
  | some constant =>
    have hP := hI.constants hm constant (Array.mem_of_getElem? hconstant)
    refine (hI.keeps_ask (hhost.function? hP)).bind fun code? hcode => ?_
    cases code? with
    | none => exact .throw _
    | some code =>
      refine (hI.keeps_take count).bind fun free hfree => ?_
      have hfresh : Keeps I (fun _ => True) freshIdentity :=
        fun m hm => ⟨hI.identity hm, fun _ _ => trivial⟩
      refine hfresh.bind fun identity _ => ?_
      exact (hI.keeps_ask (hhost.ofClosure (hcode code rfl identity free hfree))).bind
        fun v hv => hI.keeps_push hv

/-! ### Instructions -/

theorem keeps_execute {i : Instruction} (h : i.opcode.transfers = false) :
    Keeps I (fun _ => True) (execute host i) := by
  obtain ⟨op, operands⟩ := i
  cases op with
  | jump | jumpNotTruthy | call | returnValue | ret => cases h
  | constant =>
    refine Keeps.get.bind fun m hm => ?_
    split
    · next v hv => exact (hI.keeps_push (hI.constants hm v (Array.mem_of_getElem? hv))).done _
    · exact (Keeps.throw (Q := fun _ => True) _).done _
  | pop =>
    exact hI.keeps_pop.bind fun v hv => (Keeps.modify fun m hm => hI.lastPopped hm hv).done _
  | add | sub | mul | div | mod | equal | notEqual | greaterThan | greaterEqual =>
    refine hI.keeps_pop.bind fun right hright => hI.keeps_pop.bind fun left hleft => ?_
    exact (hI.keeps_tryAsk (hhost.binary hleft hright)).bind fun v hv => (hI.keeps_push hv).done _
  | minus | bang =>
    refine hI.keeps_pop.bind fun v hv => (hI.keeps_tryAsk (hhost.unary hv)).bind fun w hw => ?_
    exact (hI.keeps_push hw).done _
  | true | false =>
    exact (hI.keeps_ask (hhost.boolean _)).bind fun v hv => (hI.keeps_push hv).done _
  | null => exact (hI.keeps_ask hhost.null).bind fun v hv => (hI.keeps_push hv).done _
  | getGlobal => exact (hI.keeps_getGlobal hhost _).done _
  | setGlobal | assignGlobal => exact (hI.keeps_setGlobal _).done _
  | getLocal => exact (hI.keeps_getLocal _).done _
  | setLocal | assignLocal => exact (hI.keeps_setLocal _).done _
  | getBuiltin =>
    exact (hI.keeps_tryAsk (hhost.builtin _)).bind fun v hv => (hI.keeps_push hv).done _
  | getFree =>
    refine hI.keeps_currentFrame.bind fun frame hframe => ?_
    split
    · next v hv => exact (hI.keeps_push (hhost.free hframe v (List.mem_of_getElem? hv))).done _
    · exact (Keeps.throw (Q := fun _ => True) _).done _
  | array =>
    refine (hI.keeps_take _).bind fun items hitems => ?_
    exact (hI.keeps_ask (hhost.array hitems)).bind fun v hv => (hI.keeps_push hv).done _
  | hash =>
    simp only [execute]
    split
    · exact .throw _
    · refine (hI.keeps_take _).bind fun flat hflat => ?_
      exact (hI.keeps_tryAsk (hhost.hash (of_mem_pairUp hflat))).bind fun v hv =>
        (hI.keeps_push hv).done _
  | index =>
    refine hI.keeps_pop.bind fun key hkey => hI.keeps_pop.bind fun container hcontainer => ?_
    exact (hI.keeps_tryAsk (hhost.index hcontainer hkey)).bind fun v hv => (hI.keeps_push hv).done _
  | closure => exact (hI.keeps_makeClosure hhost _ _).done _
  | currentClosure =>
    refine hI.keeps_currentFrame.bind fun frame hframe => ?_
    exact (hI.keeps_ask (hhost.ofClosure hframe)).bind fun v hv => (hI.keeps_push hv).done _

end

end Steady

namespace Stable

variable {I : Machine S V → Prop} {P : V → Prop} {C : Closure V → Prop} {host : Host S V}
  (hI : Stable I P C)
include hI

theorem keeps_fetch : Keeps I (fun _ => True) fetch := by
  refine Keeps.currentFrame_bind fun m frame callers hm hframes => ?_
  split
  · next i hdecode =>
    exact ⟨hI.moves hm hframes (Instruction.le_size_of_decodeAt hdecode), fun _ _ => trivial⟩
  · exact ⟨hm, fun _ _ => trivial⟩
  · exact ⟨hm, fun _ _ => trivial⟩
  · exact ⟨hm, fun _ _ => trivial⟩

theorem keeps_jump (target : Nat) : Keeps I (fun _ => True) (jump target) := by
  refine Keeps.currentFrame_bind fun m frame callers hm hframes => ?_
  split
  · next htarget => exact ⟨hI.moves hm hframes htarget, fun _ _ => trivial⟩
  · exact ⟨hm, fun _ _ => trivial⟩

theorem keeps_leave {v : V} (hv : P v) : Keeps I (fun _ => True) (leave v) := by
  refine Keeps.get.bind fun m _ => ?_
  -- the main code has no caller to go on with
  rcases m.frames with _ | ⟨frame, _ | ⟨caller, callers⟩⟩
  · exact .throw _
  · exact (Keeps.modify fun _ hm => hI.leaves hm).bind fun _ _ => .pure trivial
  · refine (Keeps.modify fun m hm => ?_).bind fun _ _ => ?_
    · exact hI.shrink (hI.leaves hm) (frame.base - 1)
    · exact (hI.keeps_push hv).bind fun _ _ => .pure trivial

section

variable (hhost : host.Keeps P C)
include hhost

theorem of_callClosure {m : Machine S V} {closure : Closure V} {argc : Nat} (hm : I m)
    (hclosure : C closure) (hargc : argc < m.stack.size) :
    I (exec (callClosure host closure argc) m).2 := by
  rw [callClosure]
  split
  · exact hm
  · rw [exec_bind, exec_get]
    dsimp only
    split
    · exact hm
    · next hdepth =>
      -- the calls are counted before the nulls are pushed, and one is added after
      obtain ⟨hkeeps, -⟩ := hI.keeps_pushNulls hhost (closure.code.locals - argc) m hm
      obtain ⟨hcalls, hconfig, hsize⟩ := calls_pushNulls host (closure.code.locals - argc) m
      rw [exec_bind]
      generalize exec (pushNulls host (closure.code.locals - argc)) m = result
        at hkeeps hcalls hconfig hsize ⊢
      rcases result with ⟨fault | _, m'⟩
      · exact hkeeps
      · dsimp only at hsize
        refine hI.enters hkeeps hclosure ?_ (by omega) (by omega)
        rw [hcalls, hconfig]
        exact Nat.not_le.mp hdepth

theorem keeps_call (argc : Nat) : Keeps I (fun _ => True) (call host argc) := by
  intro m hm
  refine ⟨?_, fun _ _ => trivial⟩
  rw [call, exec_bind, exec_get]
  dsimp only
  split
  · exact hm
  · next hsize =>
    rw [exec_bind, exec_get]
    dsimp only
    cases hcallee : m.stack[m.stack.size - (argc + 1)]? with
    | none => exact hm
    | some callee =>
      have hP := hI.values hm callee (Array.mem_of_getElem? hcallee)
      have hclosure := hhost.closure? hP m.host
      dsimp only
      rw [exec_bind, exec_ask]
      dsimp only
      cases hfound : ((host.closure? callee).run m.host).1 with
      | some closure =>
        refine hI.of_callClosure hhost (hI.host hm) (hclosure closure hfound) ?_
        show argc < m.stack.size
        omega
      | none => exact (hI.keeps_callBuiltin hhost hP _ m.stack.size _ (hI.host hm)).1

theorem keeps_execute (i : Instruction) : Keeps I (fun _ => True) (execute host i) := by
  cases htransfers : i.opcode.transfers with
  | false => exact hI.toSteady.keeps_execute hhost htransfers
  | true =>
    obtain ⟨op, operands⟩ := i
    cases op with
    | jump => exact (hI.keeps_jump _).done _
    | jumpNotTruthy =>
      refine hI.keeps_pop.bind fun v _ => ?_
      refine (hI.keeps_ask (Q := fun _ => True) fun _ => trivial).bind fun truthy _ => ?_
      split
      · exact .pure trivial
      · exact (hI.keeps_jump _).done _
    | call => exact (hI.keeps_call hhost _).done _
    | returnValue => exact hI.keeps_pop.bind fun v hv => hI.keeps_leave hv
    | ret => exact (hI.keeps_ask hhost.null).bind fun v hv => hI.keeps_leave hv
    | _ => cases htransfers

theorem keeps_step : Keeps I (fun _ => True) (step host) :=
  hI.keeps_fetch.bind fun i _ => hI.keeps_execute hhost i

/-! ### Runs -/

omit hhost in
theorem of_finish {m : Machine S V} (hm : I m) : I (finish host m).2 := by
  rw [finish]
  split
  · exact hm
  · exact hI.host hm

theorem of_turn {m : Machine S V} (hm : I m) : I (turn host m).machine := by
  rw [turn]
  cases m.frames with
  | nil => exact hI.of_finish hm
  | cons frame callers =>
    dsimp only
    split
    · split
      · exact hI.of_finish hm
      · exact hm
    · obtain ⟨hkeeps, -⟩ := hI.keeps_step hhost m hm
      generalize exec (step host) m = result at hkeeps ⊢
      rcases result with ⟨fault | _ | v, m'⟩ <;> exact hkeeps

theorem of_run {m : Machine S V} (hm : I m) (fuel : Nat) : I (run host fuel m).2 := by
  induction fuel generalizing m with
  | zero => exact hm
  | succ fuel ih =>
    have hturn := hI.of_turn hhost hm
    rw [run_succ]
    generalize turn host m = next at hturn ⊢
    cases next with
    | next m' => exact ih hturn
    | halt result => exact hturn

theorem of_reaches {m m' : Machine S V} (hm : I m) (hreaches : Reaches host m m') : I m' := by
  induction hreaches with
  | refl => exact hm
  | tail _ hnext ih =>
    have hturn := hI.of_turn hhost ih
    rwa [hnext] at hturn

end

end Stable

/-! ### Values and closures of a run -/

/-- What holds while the machine runs that was `first` at its start: limits and constants are the
same, all values satisfy `P`, all closures that run satisfy `C`, and the calls stay within the
limit. -/
structure Holds (first : Machine S V) (P : V → Prop) (C : Closure V → Prop)
    (m : Machine S V) : Prop where
  config : m.config = first.config
  pool : m.constants = first.constants
  constants : ∀ v ∈ m.constants, P v
  stack : ∀ v ∈ m.stack, P v
  globals : ∀ v, some v ∈ m.globals → P v
  lastPopped : ∀ v, m.lastPopped = some v → P v
  closures : ∀ frame ∈ m.frames, C frame.closure
  depth : m.frames.length ≤ max 1 first.config.maxFrames

section

variable {host : Host S V} {first m : Machine S V} {P : V → Prop} {C : Closure V → Prop}

namespace Holds

theorem storeGlobal (h : Holds first P C m) {v : V} (hv : P v) (i : Nat) :
    Holds first P C { m with globals := Machine.storeGlobal m.globals i v } := by
  refine { h with globals := fun w hw => ?_ }
  rw [Machine.storeGlobal] at hw
  split at hw
  · rcases Array.mem_or_eq_of_mem_setIfInBounds hw with hw | hw
    · exact h.globals w hw
    · cases hw
      exact hv
  · rcases Array.mem_push.mp hw with hw | hw
    · rcases Array.mem_append.mp hw with hw | hw
      · exact h.globals w hw
      · simp at hw
    · cases hw
      exact hv

theorem goTo (h : Holds first P C m) (ip : Nat) : Holds first P C (m.goTo ip) := by
  refine { h with closures := ?_, depth := ?_ }
  · intro frame hframe
    have hclosures := h.closures
    rw [frames_goTo] at hframe
    cases hframes : m.frames with
    | nil => simp [hframes] at hframe
    | cons active callers =>
      rw [hframes] at hframe hclosures
      rcases List.mem_cons.mp hframe with rfl | hframe
      · exact hclosures active (by simp)
      · exact hclosures frame (by simp [hframe])
  · rw [frames_goTo, List.length_modifyHead]
    exact h.depth

theorem enter (h : Holds first P C m) {frame : Frame V} (hframe : C frame.closure)
    (hdepth : m.calls.depth < m.config.maxFrames) :
    Holds first P C { m with calls := m.calls.push frame } := by
  refine { h with closures := ?_, depth := ?_ }
  · intro frame' hframe'
    rcases List.mem_cons.mp hframe' with rfl | hframe'
    · exact hframe
    · exact h.closures frame' hframe'
  · rw [m.calls.depth_eq, h.config] at hdepth
    exact Nat.le_trans hdepth (Nat.le_max_right _ _)

theorem leave (h : Holds first P C m) : Holds first P C { m with calls := m.calls.pop } := by
  refine { h with closures := ?_, depth := ?_ }
  · exact fun frame hframe => h.closures frame (List.mem_of_mem_tail hframe)
  · refine Nat.le_trans ?_ h.depth
    show m.frames.tail.length ≤ _
    rw [List.length_tail]
    omega

end Holds

theorem stable_holds (first : Machine S V) (P : V → Prop) (C : Closure V → Prop) :
    Stable (Holds first P C) P C where
  constants h := h.constants
  values h := h.stack
  globals h := h.globals
  closures h := h.closures
  host h := { h with }
  identity h := { h with }
  lastPopped h hv := { h with lastPopped := fun w hw => by cases hw; exact hv }
  pushes h hv _ := by
    refine { h with stack := fun w hw => ?_ }
    rcases Array.mem_push.mp hw with hw | rfl
    · exact h.stack w hw
    · exact hv
  cuts h hcut :=
    { h with stack := fun w hw => h.stack w (Array.mem_def.mpr (hcut.subset hw.val)) }
  sets h hv := by
    refine { h with stack := fun w hw => ?_ }
    rcases Array.mem_or_eq_of_mem_setIfInBounds hw with hw | rfl
    · exact h.stack w hw
    · exact hv
  stores h hv _ := h.storeGlobal hv _
  moves h _ _ := h.goTo _
  enters h hclosure hdepth _ _ := h.enter hclosure hdepth
  leaves h := h.leave

theorem Holds.run (hhost : host.Keeps P C) (h : Holds first P C m) (fuel : Nat) :
    Holds first P C (Machine.run host fuel m).2 :=
  (stable_holds first P C).of_run hhost h fuel

theorem Holds.of_reaches (hhost : host.Keeps P C) {m' : Machine S V} (h : Holds first P C m)
    (hreaches : Reaches host m m') : Holds first P C m' :=
  (stable_holds first P C).of_reaches hhost h hreaches

end

/-- At the start nothing needs to be shown that is true of all values. -/
theorem holds_true (m : Machine S V) (h : m.frames.length ≤ max 1 m.config.maxFrames) :
    Holds m (fun _ => True) (fun _ => True) m where
  config := rfl
  pool := rfl
  constants _ _ := trivial
  stack _ _ := trivial
  globals _ _ := trivial
  lastPopped _ _ := trivial
  closures _ _ := trivial
  depth := h

section

variable {host : Host S V} {config : MachineConfig} {p : Program} {globals : Globals V} {state : S}
  {identity : Nat} {m : Machine S V}

/-- However deep a program calls, only so many calls are active. -/
theorem frames_length_le
    (hreaches : Reaches host (start host config p globals state identity) m) :
    m.frames.length ≤ max 1 config.maxFrames :=
  ((holds_true _ (Nat.le_max_left _ _)).of_reaches host.keeps_true hreaches).depth

/-- A run does not change its constants. -/
theorem constants_of_reaches
    (hreaches : Reaches host (start host config p globals state identity) m) :
    m.constants = (start host config p globals state identity).constants :=
  ((holds_true _ (Nat.le_max_left _ _)).of_reaches host.keeps_true hreaches).pool

end

end Machine

end Bytescript
