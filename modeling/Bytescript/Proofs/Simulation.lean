/-
How the machine follows the meaning of a program.

`At` says that the machine stands at an offset of the code of a running function and has computed
what a store holds: its globals and locals have the values of the store, its stack holds the
temporaries of the expressions that are half evaluated, and every closure it can reach implements
a routine of the store. `Sim` says that, from a machine on, an evaluation is followed to its end:
to a value, to a return or to a fault, unless the machine meets one of its limits.

Design notes: values of the machine and of the evaluation differ in what a closure holds, so they
are compared by `Value.surface`. What is fixed for a whole run is a `Setting`, and what is fixed
for one call is a `Running`; both carry the facts about the compiled code that the simulation
needs. The space a frame takes is bounded by the size of its code: at an offset there are at most
as many temporaries as bytes before it.
-/
import Bytescript.Proofs.Compiling
import Bytescript.Proofs.Functions
import Bytescript.Proofs.Instructions
import Bytescript.Proofs.Surface

namespace Bytescript

/-! ### Settings -/

/-- The room that a call of a function takes on the stack: the callee, the locals, and at most one
temporary for every byte. -/
def FunctionCode.room (f : FunctionCode) : Nat :=
  f.locals + f.code.bytes.size + 1

/-- What is fixed while a program runs: its limits and constants, the names of its globals, and
the room that suffices for each of its calls. -/
structure Setting where
  config : MachineConfig
  pool : Array Constant
  /-- The number of the first constant. -/
  first : Nat
  /-- The table of the root when the program was compiled. -/
  root : ScopeTable
  room : Nat
  /-- How deeply calls are nested at most. -/
  depth : Nat
  sound : root.Sound
  isRoot : root.IsRoot
  limit : root.definitions ≤ Scopes.globalLimit
  room_le : ∀ {f : FunctionCode}, Constant.function f ∈ pool.toList → f.room ≤ room
  depth_le : depth + 1 ≤ max 1 config.maxFrames

/-- The limits of the machine that the meaning of a program knows nothing about. -/
inductive Limit (S : Setting) : Machine.Outcome Value → Prop where
  | stack : S.config.stackSize < S.room * (S.depth + 1) → Limit S (.fault .stackOverflow)
  | global {index : Nat} : S.config.globalsSize ≤ index → index < S.root.definitions →
      Limit S (.fault (.globalOutOfRange index))

variable {S : Setting}

/-- The state is one on the way to the end of the compilation. -/
structure CompilerState.Within (S : Setting) (table : ScopeTable) (st : CompilerState) : Prop where
  table : ∃ declared, st.scopes.current.Grows declared (fun _ => True) table
  root : ∃ declared, st.scopes.root.Grows declared (fun _ => True) S.root
  constants : st.constants.toList <+: S.pool.toList

theorem CompilerState.Within.of_advances {table : ScopeTable} {st st₁ : CompilerState}
    {declared mentioned : List String} (h : st₁.Within S table)
    (hadvances : Compile.Advances declared mentioned st st₁) : st.Within S table where
  table := by
    obtain ⟨declared', htable⟩ := h.table
    exact ⟨_, (hadvances.scopes.current.trans htable).mono (.refl _) fun _ _ _ => trivial⟩
  root := by
    obtain ⟨declared', hroot⟩ := h.root
    obtain ⟨declared'', hroot'⟩ := hadvances.scopes.root
    exact ⟨_, (hroot'.trans hroot).mono (.refl _) fun _ _ _ => trivial⟩
  constants := hadvances.constants.trans h.constants

/-- The code and the captured values of a closure implement a routine: the code was compiled from
the body of the routine, and the values are those of the captured variables. -/
inductive Implements (S : Setting) (r : Routine) : FunctionCode → List Value → Prop where
  | intro {st st' : CompilerState} {body : Fragment} {free : List Value}
      (entered : st.scopes.current.Entered r.name? r.params) (sound : st.scopes.Sound)
      (inner : st.scopes.outer ≠ [])
      (compiled : (Compile.block .body r.body ({} : Fragment)).run st = .ok (body, st'))
      (within : st'.Within S st'.scopes.current)
      (locals : st'.scopes.current.definitions ≤ Compile.maxNarrow + 1)
      (captures : st'.scopes.current.captures.toList.length ≤ Compile.maxNarrow)
      (constant : Constant.function
        (Compile.functionCode r.name? r.params body st'.scopes.current) ∈ S.pool.toList)
      (values : List.Forall₂ (fun c v => r.captured.lookup c.name = some v.surface)
        st'.scopes.current.captures.toList free)
      (around : ∀ n v, r.captured.lookup n = some v →
        Scopes.HasVariable st.scopes.outer n) :
      Implements S r (Compile.functionCode r.name? r.params body st'.scopes.current) free

/-- Every closure inside a value implements a routine. -/
def Known (S : Setting) (σ : Store) (v : Value) : Prop :=
  v.Every fun identity code free =>
    ∃ r, σ.routines identity = some r ∧ Implements S r code free

/-- The routines of one store are among those of another. -/
def Store.Within (σ σ' : Store) : Prop :=
  ∀ identity r, σ.routines identity = some r → σ'.routines identity = some r

theorem Known.mono {σ σ' : Store} {v : Value} (h : Known S σ v) (hσ : σ.Within σ') :
    Known S σ' v :=
  Value.Every.mono (fun identity _ _ ⟨r, hr, himpl⟩ => ⟨r, hσ identity r hr, himpl⟩) h

/-! ### States -/

/-- The value of a global slot; null if it was never set. -/
def globalValue (globals : Globals Value) (index : Nat) : Value :=
  globals[index]?.join.getD .null

/-- The machine has computed what the store holds, locals apart. -/
structure World (S : Setting) (σ : Store) (m : Machine Console Value) : Prop where
  config : m.config = S.config
  constants : ∀ i, m.constants[i]? = S.pool[i]?.map (Value.ofConstant (S.first + i))
  globals : ∀ {n : String} {s : Symbol}, S.root.symbols[n]? = some s → s.storage = .globalSlot →
    (globalValue m.globals s.index).surface = (σ.globals n).getD .null
  known_globals : ∀ i, Known S σ (globalValue m.globals i)
  discarded : m.lastPopped.map Value.surface = σ.discarded
  known_discarded : ∀ v, m.lastPopped = some v → Known S σ v
  console : m.host = σ.console
  identity : m.nextIdentity = σ.nextIdentity
  fresh : ∀ i, σ.nextIdentity ≤ i → σ.routines i = none

/-- The table of a called function and the values of its closure: the function's own name stands
for the closure, and the captured values are those of the captured variables. -/
structure Called (closure : Closure Value) (self? : Option (String × Value))
    (captured : List (String × Value)) (table : ScopeTable) : Prop where
  inner : table.IsInner
  locals : closure.code.locals = table.definitions
  locals_le : table.definitions ≤ Compile.maxNarrow + 1
  captures_le : table.captures.toList.length ≤ Compile.maxNarrow
  self : ∀ n v, self? = some (n, v) →
    v = (Value.closure closure.identity closure.code closure.free).surface
  values : List.Forall₂ (fun c v => captured.lookup c.name = some v.surface)
    table.captures.toList closure.free

/-- How the running function was entered: as the main code, or by a call of a closure. -/
inductive Entry (S : Setting) (closure : Closure Value) :
    Activation → ScopeTable → List (Frame Value) → Prop where
  | main : Entry S closure .main S.root []
  | call {self? : Option (String × Value)} {captured : List (String × Value)} {table : ScopeTable}
      {callers : List (Frame Value)} : callers ≠ [] → Called closure self? captured table →
      Entry S closure (.call self? captured) table callers

/-- What is fixed while a function runs. -/
structure Running (S : Setting) where
  closure : Closure Value
  activation : Activation
  /-- The table of the function when it was compiled. -/
  table : ScopeTable
  callers : List (Frame Value)
  /-- The stack below the locals. -/
  below : List Value
  /-- The store when the function was entered. -/
  start : Store
  entry : Entry S closure activation table callers
  sound : table.Sound
  room_le : closure.code.room ≤ S.room
  below_le : below.length ≤ S.room * callers.length
  depth_le : callers.length ≤ S.depth

namespace Running

/-- The bytes that run. -/
abbrev bytes (R : Running S) : Array UInt8 :=
  R.closure.code.code.bytes

/-- The running closure as a value. -/
def self (R : Running S) : Value :=
  .closure R.closure.identity R.closure.code R.closure.free

theorem called (R : Running S) {self? : Option (String × Value)}
    {captured : List (String × Value)} (h : R.activation = .call self? captured) :
    R.callers ≠ [] ∧ Called R.closure self? captured R.table := by
  have hentry := R.entry
  rw [h] at hentry
  generalize R.callers = callers at hentry ⊢
  generalize R.table = table at hentry ⊢
  cases hentry with
  | call hcallers hcalled => exact ⟨hcallers, hcalled⟩

/-- The frame at an offset. -/
def frame (R : Running S) (ip : Nat) : Frame Value :=
  ⟨R.closure, ip, R.below.length⟩

end Running

/-- The locals on the stack have the values of the store. -/
structure Locals (R : Running S) (σ : Store) (locals : List Value) : Prop where
  length : locals.length = R.closure.code.locals
  known : ∀ v ∈ locals, Known S σ v
  value : ∀ {n : String} {s : Symbol}, R.table.symbols[n]? = some s → s.storage = .localSlot →
    ∃ v, locals[s.index]? = some v ∧ v.surface = (σ.locals n).getD .null

/-- The machine stands at an offset of the running code, with some temporaries on the stack. -/
structure At (R : Running S) (σ : Store) (ip : Nat) (temps : List Value)
    (m : Machine Console Value) : Prop where
  world : World S σ m
  frames : m.frames = R.frame ip :: R.callers
  stack : ∃ locals, m.stack = (R.below ++ locals ++ temps).toArray ∧ Locals R σ locals
  known : ∀ v ∈ temps, Known S σ v
  within : R.start.Within σ
  self : R.activation ≠ .main → Known S σ R.self
  offset : ip ≤ R.bytes.size
  height : temps.length ≤ ip

/-- The machine is about to leave the running function with a value. -/
def Leaving (R : Running S) (v : Value) (σ : Store) (m : Machine Console Value) : Prop :=
  ∃ (w : Value) (m₁ : Machine Console Value) (ip ip' : Nat) (temps : List Value),
    w.surface = v ∧ Known S σ w ∧ m.frames = R.frame ip :: R.callers ∧
      Machine.turn nativeHost m = Machine.leaving m₁ w ∧ At R σ ip' temps m₁

/-! ### Following an evaluation -/

variable {α β : Type}

/-- The machine ends with a fault, or meets a limit before. -/
def Halts (S : Setting) (P : Fault → Prop) (σ : Store) (m : Machine Console Value) : Prop :=
  Machine.Leads nativeHost (fun _ => False)
    (fun r => Limit S r.1 ∨ ∃ fault, P fault ∧ r.1 = .fault fault ∧ World S σ r.2) m

/-- The machine comes to a state, unless it meets a limit before. -/
def Comes (S : Setting) (Q : Machine Console Value → Prop) (m : Machine Console Value) : Prop :=
  Machine.Leads nativeHost Q (fun r => Limit S r.1) m

/-- The machine, from `m` on, comes to a result that an evaluation has and the store it leaves.
Nothing is said of an evaluation that runs out of nested calls, unless the machine does so too. -/
def Follows (R : Running S) (Q : α → Store → Machine Console Value → Prop)
    (m : Machine Console Value) : Except Stop α × Store → Prop
  | (.ok a, σ) => Comes S (Q a σ) m
  | (.error (.returned v), σ) => Comes S (Leaving R v σ) m
  | (.error (.fault fault), σ) => Halts S (fun f => f = fault ∧ f.IsMistake) σ m
  | (.error .exhausted, σ) => S.config.maxFrames ≤ S.depth + 1 →
    Halts S (· = .frameOverflow S.config.maxFrames) σ m

/-- The machine, from `m` on, follows the evaluation of `x` from the store `σ` on. -/
def Sim (R : Running S) (Q : α → Store → Machine Console Value → Prop) (x : Meaning α) (σ : Store)
    (m : Machine Console Value) : Prop :=
  Follows R Q m (x.eval σ)

theorem Comes.bind {Q Q' : Machine Console Value → Prop} {m : Machine Console Value}
    (h : Comes S Q m) (next : ∀ m, Q m → Comes S Q' m) : Comes S Q' m :=
  Machine.Leads.bind h next

theorem Halts.of_comes {P : Fault → Prop} {σ : Store} {m : Machine Console Value}
    (h : Comes S (Halts S P σ) m) : Halts S P σ m :=
  (h.mono (fun _ hm => hm) fun _ hr => .inl hr).bind fun _ hm => hm

namespace Sim

variable {R : Running S} {Q : α → Store → Machine Console Value → Prop}
  {Q' : β → Store → Machine Console Value → Prop} {x : Meaning α} {σ : Store}
  {m : Machine Console Value}

/-- Turns before an evaluation begins. -/
theorem of_comes (h : Comes S (Sim R Q x σ) m) : Sim R Q x σ m := by
  unfold Sim at h ⊢
  generalize x.eval σ = result at h ⊢
  rcases result with ⟨(v | fault | _) | a, σ'⟩
  · exact h.bind fun _ hm => hm
  · exact .of_comes h
  · exact fun hfull => .of_comes (h.mono (fun _ hm => hm hfull) fun _ hr => hr)
  · exact h.bind fun _ hm => hm

theorem bind {f : α → Meaning β} (h : Sim R Q x σ m)
    (next : ∀ a σ' m', Q a σ' m' → Sim R Q' (f a) σ' m') : Sim R Q' (x >>= f) σ m := by
  unfold Sim at h
  rw [Sim, Meaning.eval_bind]
  generalize x.eval σ = result at h ⊢
  -- a return, a fault and an exhausted depth are passed on
  rcases result with ⟨(v | fault | _) | a, σ'⟩
  · exact h
  · exact h
  · exact h
  · exact of_comes (Comes.bind h fun m' hm => .here (next a σ' m' hm))

/-- Turns after an evaluation has ended with a value. -/
theorem comes {Q' : α → Store → Machine Console Value → Prop} (h : Sim R Q x σ m)
    (hQ : ∀ a σ' m', Q a σ' m' → Comes S (Q' a σ') m') : Sim R Q' x σ m := by
  unfold Sim at h ⊢
  generalize x.eval σ = result at h ⊢
  rcases result with ⟨(v | fault | _) | a, σ'⟩
  · exact h
  · exact h
  · exact h
  · exact Comes.bind h (hQ a σ')

theorem mono {Q' : α → Store → Machine Console Value → Prop} (h : Sim R Q x σ m)
    (hQ : ∀ a σ' m', Q a σ' m' → Q' a σ' m') : Sim R Q' x σ m :=
  h.comes fun a σ' m' hm' => .here (hQ a σ' m' hm')

protected theorem pure {a : α} (h : Comes S (Q a σ) m) : Sim R Q (pure a) σ m := h

end Sim

/-! ### Moving on -/

/-- The locals and the calls of the machine do not matter to what it has computed otherwise. -/
theorem World.move {σ : Store} {m : Machine Console Value} (h : World S σ m) (stack : Array Value)
    (calls : CallStack Value) : World S σ { m with stack, calls } :=
  ⟨h.config, h.constants, h.globals, h.known_globals, h.discarded, h.known_discarded, h.console,
    h.identity, h.fresh⟩

theorem World.withLocals {σ : Store} {m : Machine Console Value} (h : World S σ m)
    (locals : String → Option Value) : World S { σ with locals } m :=
  ⟨h.config, h.constants, h.globals, h.known_globals, h.discarded, h.known_discarded, h.console,
    h.identity, h.fresh⟩

theorem World.mono {σ σ' : Store} {m m' : Machine Console Value} (h : World S σ m)
    (hσ : σ.Within σ') (hconfig : m'.config = m.config) (hconstants : m'.constants = m.constants)
    (hglobals : m'.globals = m.globals) (hglobals' : σ'.globals = σ.globals)
    (hpopped : m'.lastPopped = m.lastPopped) (hdiscarded : σ'.discarded = σ.discarded)
    (hhost : m'.host = σ'.console) (hidentity : m'.nextIdentity = σ'.nextIdentity)
    (hfresh : ∀ i, σ'.nextIdentity ≤ i → σ'.routines i = none) : World S σ' m' where
  config := hconfig.trans h.config
  constants := hconstants ▸ h.constants
  globals := by
    rw [hglobals, hglobals']
    exact h.globals
  known_globals i := by
    rw [hglobals]
    exact (h.known_globals i).mono hσ
  discarded := by
    rw [hpopped, hdiscarded]
    exact h.discarded
  known_discarded v hv := (h.known_discarded v (hpopped ▸ hv)).mono hσ
  console := hhost
  identity := hidentity
  fresh := hfresh

section

variable {R : Running S} {σ σ' : Store} {ip : Nat} {temps before : List Value}
  {m m₁ m' : Machine Console Value}

/-- A step that concerns neither the stack nor the calls. -/
theorem At.of_world (h : At R σ ip temps m) (hσ : σ.Within σ') (hlocals : σ'.locals = σ.locals)
    (hworld : World S σ' m') (hframes : m'.frames = m.frames) (hstack : m'.stack = m.stack) :
    At R σ' ip temps m' where
  world := hworld
  frames := hframes.trans h.frames
  stack := by
    obtain ⟨locals, hlocals', hmatch⟩ := h.stack
    exact ⟨locals, hstack.trans hlocals', hmatch.length, fun v hv => (hmatch.known v hv).mono hσ,
      hlocals ▸ hmatch.value⟩
  known := fun v hv => (h.known v hv).mono hσ
  within := fun i r hr => hσ i r (h.within i r hr)
  self := fun hcall => (h.self hcall).mono hσ
  offset := h.offset
  height := h.height

/-- The values on top of the stack can be taken from it. -/
theorem At.drop (h : At R σ ip (temps ++ before) m) :
    ∃ stack, m.stack = (stack ++ before).toArray ∧
      At R σ ip temps { m with stack := stack.toArray } := by
  obtain ⟨locals, hstack, hlocals⟩ := h.stack
  refine ⟨R.below ++ locals ++ temps, by rw [hstack, List.append_assoc _ temps], ?_⟩
  exact
    { world := h.world.move _ _
      frames := h.frames
      stack := ⟨locals, rfl, hlocals⟩
      known := fun v hv => h.known v (List.mem_append_left _ hv)
      within := h.within
      self := h.self
      offset := h.offset
      height := Nat.le_trans (by simp) h.height }

/-- The machine has fetched an instruction, and may push a value. -/
structure Fetched (R : Running S) (σ : Store) (i : Instruction) (ip : Nat) (temps : List Value)
    (m m₁ : Machine Console Value) : Prop where
  fetches : m.Fetches i m₁
  frames : ∃ ip₀, ip₀ < ip ∧ m.frames = R.frame ip₀ :: R.callers
  at_ : At R σ ip temps m₁
  height : temps.length < ip

theorem At.fetch {code : Fragment} {op : Opcode} {operands : List Nat} {span : Span}
    (h : At R σ code.stop temps m) (hfits : Instruction.Fits ⟨op, operands⟩)
    (hholds : Fragment.Holds R.bytes code (code.emit op operands span)) :
    ∃ m₁, Fetched R σ ⟨op, operands⟩ (code.emit op operands span).stop temps m m₁ := by
  have hstands := hholds.emit
  have hwidth : 0 < op.width := by cases op <;> decide
  have hsize := hstands.le_size (by simp [Instruction.encode])
  rw [Instruction.length_encode] at hsize
  have hlt : code.stop < code.stop + op.width := by omega
  rw [Fragment.stop_emit]
  refine ⟨m.goTo (code.stop + op.width),
    ⟨R.frame code.stop, R.callers, h.frames, ?_, rfl⟩, ⟨code.stop, hlt, h.frames⟩, ?_,
    Nat.lt_of_le_of_lt h.height hlt⟩
  · exact Instruction.decodeAt_encode hfits hstands
  · exact
      { world := h.world.move _ _
        frames := by
          rw [Machine.frames_goTo, h.frames]
          rfl
        stack := h.stack
        known := h.known
        within := h.within
        self := h.self
        offset := hsize
        height := Nat.le_trans h.height (Nat.le_of_lt hlt) }

/-- The room for all frames suffices for one more temporary. -/
theorem At.size_lt (h : At R σ ip temps m) (hheight : temps.length < ip) :
    m.stack.size < S.room * (S.depth + 1) := by
  obtain ⟨locals, hstack, hlocals⟩ := h.stack
  have hroom := R.room_le
  rw [FunctionCode.room] at hroom
  -- fewer temporaries than bytes before the offset, so fewer than bytes in the code
  have hoffset : ip ≤ R.closure.code.code.bytes.size := h.offset
  have hsize : m.stack.size = R.below.length + locals.length + temps.length := by
    rw [hstack]
    simp
    omega
  calc m.stack.size
      < S.room * R.callers.length + S.room := by
        have := R.below_le
        have := hlocals.length
        omega
    _ = S.room * (R.callers.length + 1) := (Nat.mul_succ _ _).symm
    _ ≤ S.room * (S.depth + 1) := Nat.mul_le_mul_left _ (Nat.succ_le_succ R.depth_le)

/-- A turn that pushes a value. -/
theorem At.push_of_move {v : Value} {frame : Frame Value} {callers : List (Frame Value)}
    (h : At R σ ip temps m₁) (hframes : m.frames = frame :: callers)
    (hmove : Machine.Move frame callers (R.frame ip :: R.callers))
    (hturn : Machine.turn nativeHost m = Machine.pushing m₁ v) (hv : Known S σ v)
    (hheight : temps.length < ip) : Comes S (At R σ ip (temps ++ [v])) m := by
  rw [Machine.pushing] at hturn
  by_cases hroom : m₁.stack.size < m₁.config.stackSize
  · rw [if_pos hroom] at hturn
    refine .turns hturn hframes ?_ (.here ?_)
    · show Machine.Move _ _ m₁.frames
      rw [h.frames]
      exact hmove
    · obtain ⟨locals, hstack, hlocals⟩ := h.stack
      exact
        { world := h.world.move _ _
          frames := h.frames
          stack := ⟨locals, by simp [hstack], hlocals⟩
          known := by
            intro w hw
            rcases List.mem_append.mp hw with hw | hw
            · exact h.known w hw
            · rw [List.mem_singleton.mp hw]
              exact hv
          within := h.within
          self := h.self
          offset := h.offset
          height := by
            rw [List.length_append]
            exact hheight }
  · -- a full stack is smaller than the frames may need
    rw [if_neg hroom] at hturn
    refine .halts hturn (.stack ?_)
    have hsize := h.size_lt hheight
    rw [h.world.config] at hroom
    omega

/-- A turn of the running function that pushes a value. -/
theorem At.push {v : Value} {ip₀ : Nat} (h : At R σ ip temps m₁)
    (hframes : m.frames = R.frame ip₀ :: R.callers) (hip : ip₀ < ip)
    (hturn : Machine.turn nativeHost m = Machine.pushing m₁ v) (hv : Known S σ v)
    (hheight : temps.length < ip) : Comes S (At R σ ip (temps ++ [v])) m :=
  h.push_of_move hframes (.within ip hip) hturn hv hheight

/-- A turn that goes on without pushing anything. -/
theorem At.next {ip₀ : Nat} (h : At R σ ip temps m₁)
    (hframes : m.frames = R.frame ip₀ :: R.callers) (hip : ip₀ < ip)
    (hturn : Machine.turn nativeHost m = .next m₁) : Comes S (At R σ ip temps) m := by
  refine .turns hturn hframes ?_ (.here h)
  rw [h.frames]
  exact .within ip hip

/-- A turn that ends in a fault of the program. -/
theorem Sim.fault {Q : α → Store → Machine Console Value → Prop} {fault : Fault}
    {result : Machine.Outcome Value × Machine Console Value}
    (hturn : Machine.turn nativeHost m = .halt result) (hresult : result.1 = .fault fault)
    (hworld : World S σ result.2) (hmistake : fault.IsMistake) :
    Sim R Q (throw (.fault fault)) σ m :=
  .halts hturn (.inr ⟨fault, ⟨rfl, hmistake⟩, hresult, hworld⟩)

end

/-- The values that stand for one value of an evaluation. -/
def IsValue (v : Value) (vs : List Value) : Prop :=
  ∃ w : Value, vs = [w] ∧ w.surface = v

/-- A turn that pushes the result of an operation, or fails with it. -/
theorem Sim.yield {R : Running S} {σ : Store} {ip ip₀ : Nat} {temps : List Value}
    {m m₁ : Machine Console Value} {result : Except Fault Value} (h : At R σ ip temps m₁)
    (hframes : m.frames = R.frame ip₀ :: R.callers) (hip : ip₀ < ip)
    (hturn : Machine.turn nativeHost m = Machine.yielding m₁ result)
    (hresult : Value.Yields
      (fun identity code free => ∃ r, σ.routines identity = some r ∧ Implements S r code free)
      result)
    (hheight : temps.length < ip) :
    Sim R (fun v σ' m' => ∃ vs, IsValue v vs ∧ At R σ' ip (temps ++ vs) m')
      (Meaning.ofResult (result.map Value.surface)) σ m := by
  cases result with
  | error fault => exact .fault hturn rfl h.world hresult
  | ok v =>
    refine .pure ((h.push hframes hip hturn hresult hheight).bind fun m' hm' => .here ?_)
    exact ⟨[v], ⟨v, rfl, rfl⟩, hm'⟩

end Bytescript
