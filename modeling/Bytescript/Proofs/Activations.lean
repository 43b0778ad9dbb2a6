/-
What the active calls of a compiled program run.

Every closure of a run was made by an instruction that names a function of the pool, so every active
call runs the main code or the body of one of those functions, and it stands before some instruction
of it. `Execution.Active` says this of one call, with all that is known of the values it has: those
under names with a recorded number of parameters are null or closures with as many parameters.

Main statement: `Execution.informed`. It is so for all calls, whatever a run reaches.

Design notes: two functions of the pool may have the same code, so a call does not show in its
closure which of them it runs. The number of the closure does: `Execution.Makes` looks up in the run
where the closure with this number was made, and from which constant.
-/
import Bytescript.Proofs.Isolation
import Bytescript.Proofs.Origins

namespace Bytescript

open Compile Machine

/-- A closure with this number of parameters. -/
def Value.HasParams (a : Nat) (v : Value) : Prop :=
  ∃ identity f free, v = .closure identity f free ∧ f.params = a

/-- The value under a name for which a number of parameters is recorded: a closure with as many
parameters, or null if the name has no value yet. -/
def Value.Takes (a : Nat) (v : Value) : Prop :=
  v = .null ∨ v.HasParams a

/-- The call finds the value at its origin: it is what the name stands for, or a closure of the
function. -/
def Origin.Provides (globals : Globals Value) (frame : Frame Value) (region : List Value) :
    Origin → Value → Prop
  | .name .globalSlot n, v => v = globalValue globals n
  | .name .localSlot n, v => region[n]? = some v
  | .name .captured n, v => frame.closure.free[n]? = some v
  | .name .builtin _, _ => False
  | .name .self _, v => v = .closure frame.closure.identity frame.closure.code frame.closure.free
  | .made f, v => ∃ identity free, v = .closure identity f free

/-- Only the slots of the call matter. -/
theorem Origin.Provides.move {globals : Globals Value} {frame : Frame Value}
    {region region' : List Value} {origin : Origin} {v : Value} (ip : Nat)
    (h : origin.Provides globals frame region v)
    (hregion : ∀ {n}, origin = .name .localSlot n → region'[n]? = region[n]?) :
    origin.Provides globals { frame with ip } region' v := by
  cases origin with
  | made f => exact h
  | name storage n =>
    cases storage with
    | localSlot => exact (hregion rfl).trans h
    | globalSlot | captured | builtin | self => exact h

/-- What an instruction stores in a slot was on top of the stack. -/
theorem Machine.Effect.of_targets {m m' : Machine Console Value} {frame : Frame Value}
    {pre region : List Value} {i : Instruction} {storage : Storage} {n : Nat}
    (h : Effect m frame pre region i m') (htargets : i.Targets storage n) :
    ∃ r v, region = r ++ [v] ∧
      ((storage = .globalSlot ∧
          m' = { m with stack := (pre ++ r).toArray, globals := storeGlobal m.globals n v }) ∨
        (storage = .localSlot ∧ n < r.length ∧
          m' = { m with stack := (pre ++ r.set n v).toArray })) := by
  obtain ⟨hoperands, hop⟩ := htargets
  cases h with
  | @setsGlobal r v op n' hop' =>
    obtain rfl : n' = n := by simpa using hoperands
    rcases hop with ⟨rfl, -⟩ | ⟨-, hop⟩
    · exact ⟨r, v, rfl, .inl ⟨rfl, rfl⟩⟩
    · rcases hop' with rfl | rfl <;> simp at hop
  | @setsLocal r v op n' hop' hn =>
    obtain rfl : n' = n := by simpa using hoperands
    rcases hop with ⟨-, hop⟩ | ⟨rfl, -⟩
    · rcases hop' with rfl | rfl <;> simp at hop
    · exact ⟨r, v, rfl, .inr ⟨rfl, hn, rfl⟩⟩
  -- no other effect is that of an instruction that stores
  | gives _ hpushes =>
    rcases hop with ⟨-, hop | hop⟩ | ⟨-, hop | hop⟩ <;> simp [Instruction.pushes, hop] at hpushes
  | drops hop' =>
    rcases hop with ⟨-, hop | hop⟩ | ⟨-, hop | hop⟩ <;> simp [hop] at hop'
  | jumps hop' =>
    rcases hop with ⟨-, rfl | rfl⟩ | ⟨-, rfl | rfl⟩ <;> cases hop'
  | enters => simp at hop
  | leaves hreturns =>
    cases hreturns <;> simp at hop

/-- A program that was compiled, and how it is run. -/
structure Execution where
  ast : Ast
  program : Program
  last : CompilerState
  compiles : compileFrom {} ast = .ok (program, last)
  config : MachineConfig
  identity : Nat

namespace Execution

variable (E : Execution)

/-- The machine at the start. -/
def first : Machine Console Value :=
  start nativeHost E.config E.program #[] {} E.identity

/-- The run comes to the machine, which makes a closure with the number `i` from the constant `j`.
The values that it captures are on top of the stack. -/
def Makes (m : Machine Console Value) (j i : Nat) (free : List Value) : Prop :=
  Reaches nativeHost E.first m ∧ m.nextIdentity = i ∧
    (∃ m₁ m', m.Fetches ⟨.closure, [j, free.length]⟩ m₁ ∧ turn nativeHost m = .next m') ∧
    ∃ below, m.stack = (below ++ free).toArray

/-- The frame runs the main code, or the function at an index of the pool. -/
def Plays : Option Nat → Frame Value → Prop
  | none, frame => frame.closure = E.program.main E.identity
  | some j, frame => ∃ m, E.Makes m j frame.closure.identity frame.closure.free

/-- The next instruction of the machine is `i`, with which the code of the site ends. -/
def Completes (o : Option Nat) (site : Site) (i : Instruction)
    (m : Machine Console Value) : Prop :=
  ∃ frame callers m₁, m.frames = frame :: callers ∧ E.Plays o frame ∧ m.Fetches i m₁ ∧
    frame.ip + i.opcode.width = site.codeAfter.stop

/-- What is known of every closure of the run: the function it was made from, and the values that it
captured under names with a recorded number of parameters. -/
def Made (i : Nat) (f : FunctionCode) (free : List Value) : Prop :=
  ∃ j w, (∃ m, E.Makes m j i free) ∧ Whole {} E.ast (some j) w ∧
    E.program.codeOf? (some j) = some f ∧
    ∀ {c a}, w.stateAfter.scopes.current.Knows .captured c a → ∃ v, free[c]? = some v ∧ v.Takes a

/-- The call stands before the instruction at the index `k` of a code of the program. What it has in
slots and among captured values under names with a recorded number of parameters is as recorded, and
what it has on the stack from such names is what is found under them. -/
structure Active (globals : Globals Value) (o : Option Nat) (w : Site)
    (is : List (Located Instruction)) (k : Nat) (frame : Frame Value) (region : List Value) :
    Prop where
  whole : Whole {} E.ast o w
  instructions : is = w.instructions
  plays : E.Plays o frame
  base : o = none ↔ frame.base = 0
  code : E.program.codeOf? o = some frame.closure.code
  free : ∀ v ∈ frame.closure.free, v.Every E.Made
  captured : ∀ {c a}, w.stateAfter.scopes.current.Knows .captured c a →
    ∃ v, frame.closure.free[c]? = some v ∧ v.Takes a
  slots : ∀ {n a}, w.stateAfter.scopes.current.Knows .localSlot n a →
    ∃ v, region[n]? = some v ∧ v.Takes a
  held : ∀ {h origin} {n : Nat}, Held (Carries E.program E.last o w) is k h origin →
    (n : Int) = frame.closure.code.locals + h →
    ∃ v, region[n]? = some v ∧ origin.Provides globals frame region v

/-- The call runs some code of the program. -/
abbrev Known (globals : Globals Value) (is : List (Located Instruction)) (k : Nat)
    (frame : Frame Value) (region : List Value) : Prop :=
  ∃ o w, E.Active globals o w is k frame region

/-- What is known of a machine that the run reaches. -/
structure Informed (m : Machine Console Value) : Prop where
  constants : m.constants = E.first.constants
  stack : ∀ v ∈ m.stack, v.Every E.Made
  globals : ∀ n, (globalValue m.globals n).Every E.Made
  known : ∀ {n a}, E.last.scopes.root.Knows .globalSlot n a → (globalValue m.globals n).Takes a
  rests : Rests (Stands (E.Known m.globals)) [] [] m

variable {E}

/-! ### Constants -/

theorem getElem?_constants {n : Nat} {v : Value} (h : E.first.constants[n]? = some v) :
    ∃ c, E.program.constants[n]? = some c ∧ v = Value.ofConstant (E.identity + n) c := by
  rw [first, start_eq] at h
  simp only [List.getElem?_toArray, List.getElem?_mapIdx, Option.map_eq_some_iff] at h
  obtain ⟨c, hc, rfl⟩ := h
  exact ⟨c, by rwa [Array.getElem?_toList] at hc, rfl⟩

theorem function_of_constants {n i : Nat} {f : FunctionCode}
    (h : E.first.constants[n]? = some (.function i f)) :
    E.program.constants[n]? = some (.function f) := by
  obtain ⟨c, hc, hv⟩ := getElem?_constants h
  cases c with
  | function g =>
    cases hv
    exact hc
  | integer | float | string => cases hv

namespace Active

variable {o : Option Nat} {w : Site} {is : List (Located Instruction)} {k : Nat}
  {frame : Frame Value} {region r top : List Value} {i : Located Instruction}
  {m : Machine Console Value} {v : Value} {globals : Globals Value} {origin : Origin}

/-! ### What an instruction gives -/

/-- A constant that is pushed is no function. -/
theorem every_constant (h : E.Active globals o w is k frame region) {n : Nat} {span : Span}
    (hi : is[k]? = some ⟨⟨.constant, [n]⟩, span⟩) (hv : E.first.constants[n]? = some v) :
    v.Every E.Made := by
  rw [h.instructions] at hi
  obtain ⟨c, hc, rfl⟩ := getElem?_constants hv
  have hproper := h.whole.proper hi
  cases hproper with
  | @constant _ c' _ hpool hne =>
    obtain ⟨hlt, hat⟩ := List.getElem?_eq_some_iff.mp hpool
    have hkept := List.prefix_iff_getElem?.mp (h.whole.occurs.after .init E.compiles).constants n hlt
    rw [Array.getElem?_toList, ← constants_of_compile .init E.compiles, hc] at hkept
    cases c with
    | function f => exact absurd (hat.symm.trans (Option.some.inj hkept).symm) (hne f)
    | integer | float | string => trivial
  | global hop | slot hop => simp at hop
  | jump _ hop => cases hop

/-- The running closure, if it is that of a function. -/
theorem made (h : E.Active globals o w is k frame region) {span : Span}
    (hi : is[k]? = some ⟨⟨.currentClosure, []⟩, span⟩) :
    E.Made frame.closure.identity frame.closure.code frame.closure.free := by
  cases o with
  | some j => exact ⟨j, w, h.plays, h.whole, h.code, h.captured⟩
  | none =>
    -- the main code does not name itself
    rw [h.instructions] at hi
    have hproper := h.whole.proper hi
    have hglobal : w.stateAfter.scopes.isGlobal = true := by
      have hvalid := h.whole.occurs.valid CompilerState.valid_init
      rw [← (w.later hvalid).isGlobal, h.whole.occurs.isGlobal CompilerState.valid_init rfl]
      rfl
    cases hproper with
    | self hself =>
      replace hself : (!w.stateAfter.scopes.isGlobal) = true := hself
      rw [hglobal] at hself
      cases hself
    | simple _ hne => exact absurd rfl hne

/-- What is found under a name with a recorded number of parameters is as recorded. -/
theorem takes_of_provides (h : E.Active m.globals o w is k frame region) (hm : E.Informed m)
    {a : Nat} (hrecords : Records E.program E.last o w origin a)
    (hv : origin.Provides m.globals frame region v) : v.Takes a := by
  cases hrecords with
  | global hknows =>
    obtain rfl : v = globalValue m.globals _ := hv
    exact hm.known hknows
  | slot hknows =>
    obtain ⟨v', hv', htakes⟩ := h.slots hknows
    obtain rfl : v = v' := Option.some.inj (hv.symm.trans hv')
    exact htakes
  | captured hknows =>
    obtain ⟨v', hv', htakes⟩ := h.captured hknows
    obtain rfl : v = v' := Option.some.inj (hv.symm.trans hv')
    exact htakes
  | self hf =>
    rw [h.code] at hf
    cases hf
    exact .inr ⟨_, _, _, hv, rfl⟩
  | made =>
    obtain ⟨identity, free, hv⟩ := hv
    exact .inr ⟨identity, _, free, hv, rfl⟩

/-- What a closure captures under a name with a recorded number of parameters is what the call finds
under the name. -/
theorem exists_captured (h : E.Active globals o w is k frame (r ++ top))
    (hstanding : Standing is k frame (r ++ top)) {j : Nat} {span : Span}
    (hi : is[k]? = some ⟨⟨.closure, [j, top.length]⟩, span⟩) :
    ∃ body, Whole {} E.ast (some j) body ∧
      ∀ {c a}, body.stateAfter.scopes.current.Knows .captured c a →
        ∃ outside v, body.stateAfter.scopes.current.captures[c]? = some outside ∧
          Records E.program E.last o w (.name outside.storage outside.index) a ∧
          top[c]? = some v ∧
          (Origin.name outside.storage outside.index).Provides globals frame (r ++ top) v := by
  rw [h.instructions] at hi
  obtain ⟨body, hbody, hcaptured⟩ := h.whole.held_of_closure E.compiles hi
  refine ⟨body, hbody, fun {c a} hknows => ?_⟩
  -- it is on top of the stack
  obtain ⟨hlt, outside, hsymbol, hrecords, hheld⟩ := hcaptured hknows
  rw [← h.instructions] at hheld
  have hheight := hstanding.height
  rw [List.length_append] at hheight
  obtain ⟨v, hv, hprovides⟩ := h.held (n := r.length + c) hheld (by omega)
  rw [List.getElem?_append_right (by omega), Nat.add_sub_cancel_left] at hv
  exact ⟨outside, v, hsymbol, hrecords, hv, hprovides⟩

/-- An instruction pushes only closures that were made in the run. -/
theorem every_of_gives (h : E.Active m.globals o w is k frame (r ++ top)) (hm : E.Informed m)
    (hreaches : Reaches nativeHost E.first m) (hstanding : Standing is k frame (r ++ top))
    (hi : is[k]? = some i) {pre : List Value} (hstack : m.stack = (pre ++ (r ++ top)).toArray)
    {m₁ m' : Machine Console Value} (hfetches : m.Fetches i.value m₁)
    (hturn : turn nativeHost m = .next m') (hgives : Gives m frame (r ++ top) i.value top v) :
    v.Every E.Made := by
  obtain ⟨⟨op, operands⟩, span⟩ := i
  have hregion : ∀ v ∈ r ++ top, v.Every E.Made := by
    intro v hv
    refine hm.stack v ?_
    rw [hstack, List.mem_toArray]
    exact List.mem_append_right pre hv
  cases hgives with
  | constant hv => exact h.every_constant hi (hm.constants ▸ hv)
  | getGlobal n => exact hm.globals n
  | getLocal hv => exact hregion v (List.mem_of_getElem? hv)
  | getFree hv => exact h.free v (List.mem_of_getElem? hv)
  | currentClosure => exact Value.every_closure.mpr ⟨h.made hi, h.free⟩
  | @closure n _ code _ hv =>
    refine Value.every_closure.mpr ⟨?_, fun v hv => hregion v (List.mem_append_right r hv)⟩
    have hconstant := function_of_constants (hm.constants ▸ hv)
    -- this turn makes the closure; the symbols of its body tell what it captures
    obtain ⟨body, hbody, hcaptured⟩ := h.exists_captured hstanding hi
    have hmakes : E.Makes m n m.nextIdentity top :=
      ⟨hreaches, rfl, ⟨m₁, m', hfetches, hturn⟩, pre ++ r, by rw [hstack, List.append_assoc]⟩
    refine ⟨n, body, ⟨m, hmakes⟩, hbody, Program.codeOf?_some.mpr hconstant, ?_⟩
    intro c a hknows
    obtain ⟨outside, v, -, hrecords, hv, hprovides⟩ := hcaptured hknows
    exact ⟨v, hv, h.takes_of_provides hm hrecords hprovides⟩
  | computed _ hv => exact hv _ fun w hw => hregion w (List.mem_append_right r hw)

/-- What an instruction pushes from an origin is what is found there. -/
theorem provides_of_gives (hm : E.Informed m) {j : Instruction}
    (hcarries : Carries E.program E.last o w j origin) (hgives : Gives m frame region j top v) :
    origin.Provides m.globals frame region v := by
  obtain ⟨hpushes, a, hrecords⟩ := hcarries
  cases hpushes with
  | global n =>
    cases hgives with
    | getGlobal n => exact rfl
    | computed hload => simp [Opcode.IsLoad] at hload
  | slot n =>
    cases hgives with
    | getLocal hv => exact hv
    | computed hload => simp [Opcode.IsLoad] at hload
  | captured n =>
    cases hgives with
    | getFree hv => exact hv
    | computed hload => simp [Opcode.IsLoad] at hload
  -- nothing is recorded for built-in functions
  | builtin n => cases hrecords
  | self n =>
    cases hgives with
    | currentClosure => exact rfl
    | computed hload => simp [Opcode.IsLoad] at hload
  | closure hf =>
    cases hgives with
    | closure hv =>
      have hconstant := function_of_constants (hm.constants ▸ hv)
      rw [hf] at hconstant
      cases hconstant
      exact ⟨_, _, rfl⟩
    | computed hload => simp [Opcode.IsLoad] at hload

/-! ### What a call keeps -/

/-- A name in a slot is in one of the locals. -/
theorem lt_locals (h : E.Active globals o w is k frame region) {j : Instruction} {n : Nat}
    (hcarries : Carries E.program E.last o w j (.name .localSlot n)) :
    n < frame.closure.code.locals := by
  obtain ⟨-, a, hrecords⟩ := hcarries
  cases hrecords with
  | slot hknows => exact (h.whole.slot_of_knows E.compiles h.code hknows).2

/-- What is held further down stays when temporaries are dropped. -/
theorem held_below (h : E.Active globals o w is k frame (r ++ top))
    (hstanding : Standing is k frame (r ++ top)) {height : Int} {n : Nat}
    (hheld : Held (Carries E.program E.last o w) is k height origin)
    (hbound : height + 1 + top.length ≤ rise (is.take k))
    (hn : (n : Int) = frame.closure.code.locals + height) :
    ∃ v, r[n]? = some v ∧ origin.Provides globals frame (r ++ top) v := by
  obtain ⟨v, hv, hprovides⟩ := h.held hheld hn
  have hheight := hstanding.height
  rw [List.length_append] at hheight
  rw [List.getElem?_append_left (by omega)] at hv
  exact ⟨v, hv, hprovides⟩

/-- The call goes on at another instruction, with the same locals. -/
theorem move {region' : List Value} {k' ip : Nat} (h : E.Active globals o w is k frame region)
    (hlocals : ∀ {n}, n < frame.closure.code.locals → region'[n]? = region[n]?)
    (hheld : ∀ {height origin} {n : Nat}, Held (Carries E.program E.last o w) is k' height origin →
      (n : Int) = frame.closure.code.locals + height →
      ∃ v, region'[n]? = some v ∧ origin.Provides globals frame region v) :
    E.Active globals o w is k' { frame with ip } region' where
  whole := h.whole
  instructions := h.instructions
  plays := by
    cases o with
    | none => exact h.plays
    | some j => exact h.plays
  base := h.base
  code := h.code
  free := h.free
  captured := h.captured
  slots hknows := by
    rw [hlocals (h.whole.slot_of_knows E.compiles h.code hknows).2]
    exact h.slots hknows
  held hheld' hn := by
    obtain ⟨v, hv, hprovides⟩ := hheld hheld' hn
    obtain ⟨x, i, -, hcarries, -⟩ := hheld'
    refine ⟨v, hv, hprovides.move ip fun horigin => hlocals ?_⟩
    subst horigin
    exact h.lt_locals hcarries

/-- The call goes on behind an instruction. -/
theorem advance {new : List Value} {ip : Nat} (h : E.Active globals o w is k frame (r ++ top))
    (hstanding : Standing is k frame (r ++ top)) (hi : is[k]? = some i)
    (htop : top.length = i.value.pops)
    (hnew : ∀ {origin}, Carries E.program E.last o w i.value origin →
      ∃ v, (r ++ new)[r.length]? = some v ∧ origin.Provides globals frame (r ++ top) v) :
    E.Active globals o w is (k + 1) { frame with ip } (r ++ new) := by
  have hlocals := hstanding.locals_le hi (Nat.le_of_eq htop)
  have hheight := hstanding.height
  rw [List.length_append] at hheight
  refine h.move (fun hn => ?_) fun {height origin n} hheld hn => ?_
  · rw [List.getElem?_append_left (by omega), List.getElem?_append_left (by omega)]
  · -- what is held behind the instruction was pushed by it, or it lies below what it takes
    rcases hheld.of_succ hi with ⟨hcarries, rfl⟩ | ⟨hheld, hbound, -⟩
    · obtain rfl : n = r.length := by omega
      exact hnew hcarries
    · obtain ⟨v, hv, hprovides⟩ := h.held_below hstanding hheld (by omega) hn
      refine ⟨v, ?_, hprovides⟩
      rw [List.getElem?_append_left (List.getElem?_eq_some_iff.mp hv).1, hv]

/-- The value that is stored under a name with a recorded number of parameters is a closure. -/
theorem hasParams_of_store (h : E.Active globals o w is k frame (r ++ [v]))
    (hstanding : Standing is k frame (r ++ [v])) (hi : is[k]? = some i) {storage : Storage}
    {n a : Nat} (htargets : i.value.Targets storage n)
    (hknows : (w.table E.last.scopes.root storage).Knows storage n a) : v.HasParams a := by
  rw [h.instructions] at hi
  obtain ⟨f, hparams, hheld⟩ := h.whole.held_of_store E.compiles hi htargets hknows
  rw [← h.instructions] at hheld
  have hheight := hstanding.height
  rw [List.length_append, List.length_singleton] at hheight
  obtain ⟨v', hv', identity, free, rfl⟩ := h.held (n := r.length) hheld (by omega)
  obtain rfl : v = .closure identity f free := by simpa using hv'
  exact ⟨identity, f, free, rfl, hparams⟩

/-- A value is stored in a local. -/
theorem set {op : Opcode} {n ip : Nat} {span : Span}
    (h : E.Active globals o w is k frame (r ++ [v]))
    (hstanding : Standing is k frame (r ++ [v])) (hi : is[k]? = some ⟨⟨op, [n]⟩, span⟩)
    (hop : op = .setLocal ∨ op = .assignLocal) :
    E.Active globals o w is (k + 1) { frame with ip } (r.set n v) := by
  have hpops : Instruction.pops ⟨op, [n]⟩ = 1 := by rcases hop with rfl | rfl <;> rfl
  have hpushes : Instruction.pushes ⟨op, [n]⟩ = 0 := by rcases hop with rfl | rfl <;> rfl
  have htargets : Instruction.Targets ⟨op, [n]⟩ .localSlot n := ⟨rfl, .inr ⟨rfl, hop⟩⟩
  have hlocals := hstanding.locals_le hi (Nat.le_of_eq hpops.symm)
  have hn := hstanding.slot_lt hi hop
  -- another local is as it was
  have hother : ∀ {n'}, n' ≠ n → n' < frame.closure.code.locals →
      (r.set n v)[n']? = (r ++ [v])[n']? := by
    intro n' hne hlt
    rw [List.getElem?_set_ne (Ne.symm hne), List.getElem?_append_left (by omega)]
  refine ⟨h.whole, h.instructions, ?_, h.base, h.code, h.free, h.captured, fun {n' a} hknows => ?_,
    fun {height origin n'} hheld hn' => ?_⟩
  · cases o with
    | none => exact h.plays
    | some j => exact h.plays
  · by_cases hsame : n' = n
    · subst hsame
      refine ⟨v, ?_, .inr (h.hasParams_of_store hstanding hi htargets hknows)⟩
      rw [List.getElem?_set_self (by omega)]
    · rw [hother hsame (h.whole.slot_of_knows E.compiles h.code hknows).2]
      exact h.slots hknows
  · rcases hheld.of_succ hi with ⟨hcarries, -⟩ | ⟨hheld, hbound, hcurrent⟩
    · rw [hcarries.1.pushes_eq] at hpushes
      cases hpushes
    · -- temporaries lie above the locals, and none is a copy of what is replaced
      replace hn' : (n' : Int) = frame.closure.code.locals + height := hn'
      obtain ⟨v', hv', hprovides⟩ :=
        h.held_below hstanding hheld (by simpa [hpops] using hbound) hn'
      obtain ⟨l, -, hcompiled⟩ := hstanding.lists.compiled
      have hnonneg := hheld.nonneg hcompiled.balanced
      refine ⟨v', by rw [List.getElem?_set_ne (by omega), hv'], hprovides.move ip ?_⟩
      rintro n'' rfl
      obtain ⟨x, i, -, hcarries, -⟩ := hheld
      refine hother ?_ (h.lt_locals hcarries)
      rintro rfl
      exact hcurrent htargets

/-- The globals change, but not those from which the call has copies. -/
theorem with_globals {globals' : Globals Value} (h : E.Active globals o w is k frame region)
    (hglobals : ∀ {height n},
      Held (Carries E.program E.last o w) is k height (.name .globalSlot n) →
      globalValue globals' n = globalValue globals n) :
    E.Active globals' o w is k frame region := by
  refine ⟨h.whole, h.instructions, h.plays, h.base, h.code, h.free, h.captured, h.slots,
    fun {height origin n} hheld hn => ?_⟩
  obtain ⟨v, hv, hprovides⟩ := h.held hheld hn
  refine ⟨v, hv, ?_⟩
  cases origin with
  | made f => exact hprovides
  | name storage n' =>
    cases storage with
    | globalSlot => exact hprovides.trans (hglobals hheld).symm
    | localSlot | captured | builtin | self => exact hprovides

end Active

/-- A turn keeps what is known of the calls, as far as it does not change globals. -/
theorem lasts_known {m : Machine Console Value} (hm : E.Informed m) :
    Lasts (E.Known m.globals) m where
  gives := by
    rintro is k frame r top i v hstanding ⟨o, w, h⟩ hi htop hgives
    refine ⟨o, w, h.advance hstanding hi htop fun hcarries => ⟨v, by simp, ?_⟩⟩
    exact Active.provides_of_gives hm hcarries hgives
  drops := by
    rintro is k frame r v i hstanding ⟨o, w, h⟩ hi hpops hpushes
    refine ⟨o, w, ?_⟩
    rw [← List.append_nil r]
    -- it goes on with nothing new, since what only drops pushes no value of an origin
    refine h.advance hstanding hi hpops.symm fun hcarries => ?_
    rw [hcarries.1.pushes_eq] at hpushes
    cases hpushes
  jumps := by
    rintro is k k' frame r top i hstanding ⟨o, w, h⟩ hi hjump hoperands hlt htop
    have htaken := i.value.taken_le_pops
    have hlocals := hstanding.locals_le hi (by omega)
    refine ⟨o, w, h.move (fun hn => ?_) fun hheld hn => ?_⟩
    · rw [List.getElem?_append_left (by omega)]
    · obtain ⟨hheld, hbound⟩ := hheld.of_jump hi hjump hoperands hlt
      exact h.held_below hstanding hheld (by omega) hn
  setsLocal := by
    rintro is k frame r v op n span hstanding ⟨o, w, h⟩ hi hop -
    exact ⟨o, w, h.set hstanding hi hop⟩
  calls := by
    rintro is k frame r callee args span hstanding ⟨o, w, h⟩ hi v
    refine ⟨o, w, h.advance hstanding hi rfl fun hcarries => ?_⟩
    cases hcarries.1
  enters := by
    intro args identity code free _ _ base _ _ hcallee hcount
    obtain ⟨⟨j, w, hmade, hwhole, hcode, hcaptured⟩, hfree⟩ :=
      Value.every_closure.mp (hm.stack _ hcallee)
    obtain ⟨f, hf, hlists, -⟩ := hwhole.lists E.compiles
    obtain rfl : code = f := by simpa [hcode] using hf
    refine ⟨w.instructions, 0, .start hlists _ (length_callLocals hcount hlists.params), some j, w,
      hwhole, rfl, hmade, by simp, hcode, hfree, hcaptured, fun {n a} hknows => ?_, ?_⟩
    · -- the locals that are no parameters begin as nulls
      obtain ⟨hparams, hlt⟩ := hwhole.slot_of_knows E.compiles hcode hknows
      refine ⟨.null, ?_, .inl rfl⟩
      rw [callLocals, List.getElem?_append_right (by omega), List.getElem?_replicate,
        if_pos (by omega)]
    · -- nothing is held before the first instruction
      rintro height origin n ⟨x, i, -, -, -, hstays⟩
      exact absurd hstays.lt (Nat.not_lt_zero x)

/-! ### Whole runs -/

variable {m m' : Machine Console Value}

/-- The main code is at its first instruction. -/
theorem stands_first (E : Execution) :
    Stands (E.Known E.first.globals) { closure := E.program.main E.identity } [] := by
  obtain ⟨w, hwhole, -⟩ := exists_program .init E.compiles
  obtain ⟨f, hf, hlists, hlocals⟩ := hwhole.lists E.compiles
  obtain rfl : (E.program.main E.identity).code = f := Option.some.inj hf
  refine ⟨w.instructions, 0, .start hlists 0 hlocals.symm, none, w, ?_⟩
  refine ⟨hwhole, rfl, rfl, by simp, hf, by simp [Program.main], ?_, ?_, ?_⟩
  · intro c a hknows
    exact absurd hknows (hwhole.not_knows_of_none E.compiles (.inr rfl))
  · intro n a hknows
    exact absurd hknows (hwhole.not_knows_of_none E.compiles (.inl rfl))
  · rintro height origin n ⟨x, i, -, -, -, hstays⟩
    exact absurd hstays.lt (Nat.not_lt_zero x)

theorem informed_first (E : Execution) : E.Informed E.first := by
  have hglobals : ∀ n, globalValue E.first.globals n = .null := by
    intro n
    rw [first, start_eq]
    rfl
  refine ⟨rfl, ?_, fun n => ?_, fun {n a} hknows => ?_, ?_⟩
  · rw [first, start_eq]
    simp
  · rw [hglobals]
    exact Value.every_null
  · rw [hglobals]
    exact .inl rfl
  · have hstands := E.stands_first
    rw [first, start_eq] at hstands ⊢
    exact ⟨_, [], [], [], rfl, rfl, .here, rfl, hstands⟩

/-- A store in a global leaves what the calls have of it: only the main code stores in a global with
a recorded number of parameters, when no other call is active and nothing on the stack is a copy. -/
theorem Informed.rests_of_store {frame : Frame Value} {callers : List (Frame Value)}
    {pre r : List Value} {v : Value} {is : List (Located Instruction)} {k n : Nat}
    {i : Located Instruction} {o : Option Nat} {w : Site}
    (hframed : Framed (Stands (E.Known m.globals)) [] [] m frame callers pre (r ++ [v]))
    (hstanding : Standing is k frame (r ++ [v]))
    (hactive : E.Active m.globals o w is k frame (r ++ [v])) (hi : is[k]? = some i)
    (htargets : i.value.Targets .globalSlot n)
    (hframes : m'.frames = { frame with ip := offsetAt is (k + 1) } :: callers)
    (hstack : m'.stack = (pre ++ r).toArray) (hglobals : m'.globals = storeGlobal m.globals n v) :
    Rests (Stands (E.Known m'.globals)) [] [] m' := by
  have hpops : i.value.pops = 1 ∧ i.value.pushes = 0 := by
    obtain ⟨-, ⟨-, hop | hop⟩ | ⟨hslot, -⟩⟩ := htargets
    · simp [Instruction.pops, Instruction.pushes, hop]
    · simp [Instruction.pops, Instruction.pushes, hop]
    · cases hslot
  have hother : ∀ {n'}, n' ≠ n → globalValue m'.globals n' = globalValue m.globals n' := by
    intro n' hne
    rw [hglobals, globalValue_storeGlobal, if_neg hne]
  refine ⟨_, callers, pre, r, hframes, hstack, ?_, hframed.base, is, k + 1,
    hstanding.drop hi hpops.1 hpops.2 rfl, o, w, ?_⟩
  · by_cases hknown : ∃ a, E.last.scopes.root.Knows .globalSlot n a
    · -- the main code has no callers
      obtain ⟨a, hknows⟩ := hknown
      obtain rfl := hactive.whole.eq_none_of_knows E.compiles (hactive.instructions ▸ hi) htargets
        hknows
      have hbase := hactive.base.mp rfl
      have hunder := hframed.under
      rw [List.length_eq_zero_iff.mp (hframed.base.symm.trans hbase)] at hunder ⊢
      generalize hpre : ([] : List Value) = pre' at hunder
      cases hunder with
      | here => exact .here
      | caller => simp at hpre
    · -- no copy is taken of a global for which no number is recorded
      refine hframed.under.mono fun frame region hstands => ?_
      obtain ⟨is', k', hstanding', o', w', h⟩ := hstands
      refine ⟨is', k', hstanding', o', w', h.with_globals fun hheld => hother ?_⟩
      rintro rfl
      obtain ⟨x, j, -, ⟨-, a, hrecords⟩, -⟩ := hheld
      exact hknown ⟨a, hrecords.knows (.inl rfl)⟩
  · -- the running call has dropped the value, and it holds no copy of what is replaced
    have hdropped :
        E.Active m.globals o w is (k + 1) { frame with ip := offsetAt is (k + 1) } r := by
      rw [← List.append_nil r]
      refine hactive.advance hstanding hi hpops.1.symm fun hcarries => ?_
      rw [hcarries.1.pushes_eq] at hpops
      omega
    refine hdropped.with_globals fun hheld => hother ?_
    rintro rfl
    rcases hheld.of_succ hi with ⟨hcarries, -⟩ | ⟨-, -, hcurrent⟩
    · rw [hcarries.1.pushes_eq] at hpops
      omega
    · exact hcurrent htargets

/-- A turn keeps what is known of the machine. -/
theorem Informed.turn (hm : E.Informed m) (hreaches : Reaches nativeHost E.first m)
    (hturn : Machine.turn nativeHost m = .next m') : E.Informed m' := by
  obtain ⟨frame, callers, pre, region, hframed⟩ := hm.rests
  obtain ⟨is, k, hstanding, o, w, hactive⟩ := hframed.running
  obtain ⟨i, hi, hfetches, heffect⟩ := hframed.effect hstanding hturn
  have hevery : ∀ v ∈ pre ++ region, v.Every E.Made := by
    intro v hv
    exact hm.stack v (by rw [hframed.stack]; simpa using hv)
  have hstack : ∀ v ∈ m'.stack, v.Every E.Made := by
    intro v hv
    rcases heffect.mem_stack hv with hold | rfl | ⟨r, top, rfl, hgives⟩
    · exact hevery v hold
    · exact Value.every_null
    · exact hactive.every_of_gives hm hreaches hstanding hi hframed.stack hfetches hturn
        hgives.of_goTo
  have hconstants := heffect.constants_eq.trans hm.constants
  -- what is known of the calls depends on the globals, so stores in them are looked at apart
  rcases heffect.globals_eq with hsame | ⟨_, _, op, n, -, hop, hset, -⟩
  · replace hsame : m'.globals = m.globals := hsame
    have hrests : Rests (Stands (E.Known m.globals)) [] [] m' := by
      rcases hframed.turn (lasts_known hm) hturn with hrests | ⟨-, hne, -⟩
      · exact hrests
      · exact absurd rfl hne
    rw [← hsame] at hrests
    refine ⟨hconstants, hstack, fun n => ?_, fun hknows => ?_, hrests⟩
    · rw [hsame]
      exact hm.globals n
    · rw [hsame]
      exact hm.known hknows
  · have htargets : i.value.Targets .globalSlot n := by
      rw [hop]
      exact ⟨rfl, .inl ⟨rfl, hset⟩⟩
    obtain ⟨r, v, rfl, ⟨-, hm'⟩ | ⟨hslot, -⟩⟩ := heffect.of_targets htargets
    · have hframes : m'.frames = { frame with ip := offsetAt is (k + 1) } :: callers := by
        rw [hm']
        show (m.goTo (offsetAt is (k + 1))).frames = _
        rw [frames_goTo, hframed.frames]
        rfl
      have hglobals : m'.globals = storeGlobal m.globals n v := by rw [hm']; rfl
      refine ⟨hconstants, hstack, fun n' => ?_, fun {n' a} hknows => ?_,
        rests_of_store hframed hstanding hactive hi htargets hframes (by rw [hm']) hglobals⟩
      · rw [hglobals, globalValue_storeGlobal]
        split
        · exact hevery v (by simp)
        · exact hm.globals n'
      · rw [hglobals, globalValue_storeGlobal]
        split
        · next heq =>
          subst heq
          exact .inr (hactive.hasParams_of_store hstanding hi htargets hknows)
        · exact hm.known hknows
    · cases hslot

/-- Whatever a run reaches, its calls run codes of the program, and the values under names with a
recorded number of parameters are as recorded. -/
theorem informed (hreaches : Reaches nativeHost E.first m) : E.Informed m := by
  induction hreaches with
  | refl => exact E.informed_first
  | tail hreaches hturn ih => exact ih.turn hreaches hturn

/-- The running call of a machine that a run reaches. -/
theorem exists_active (hreaches : Reaches nativeHost E.first m) :
    ∃ frame callers pre region is k o w,
      Framed (Stands (E.Known m.globals)) [] [] m frame callers pre region ∧
      Standing is k frame region ∧ E.Active m.globals o w is k frame region := by
  obtain ⟨frame, callers, pre, region, hframed⟩ := (informed hreaches).rests
  obtain ⟨is, k, hstanding, o, w, hactive⟩ := hframed.running
  exact ⟨frame, callers, pre, region, is, k, o, w, hframed, hstanding, hactive⟩

/-- The same, if the running call is known. -/
theorem exists_active_of_frames (hreaches : Reaches nativeHost E.first m) {frame : Frame Value}
    {callers : List (Frame Value)} (hframes : m.frames = frame :: callers) :
    ∃ pre region is k o w, Framed (Stands (E.Known m.globals)) [] [] m frame callers pre region ∧
      Standing is k frame region ∧ E.Active m.globals o w is k frame region := by
  obtain ⟨running, outer, pre, region, is, k, o, w, hframed, hstanding, hactive⟩ :=
    exists_active hreaches
  have hsame := hframed.frames
  rw [hframes] at hsame
  obtain ⟨rfl, rfl⟩ := List.cons.inj hsame
  exact ⟨pre, region, is, k, o, w, hframed, hstanding, hactive⟩

/-- Every active call runs some code of the program. -/
theorem exists_plays (hreaches : Reaches nativeHost E.first m) {frame : Frame Value}
    (hframe : frame ∈ m.frames) :
    ∃ o is, E.Plays o frame ∧ E.program.codeOf? o = some frame.closure.code ∧
      frame.closure.code.Lists is := by
  obtain ⟨running, callers, pre, region, hframed⟩ := (informed hreaches).rests
  have hstands : ∃ region, Stands (E.Known m.globals) frame region := by
    rw [hframed.frames] at hframe
    rcases List.mem_cons.mp hframe with rfl | hframe
    · exact ⟨region, hframed.running⟩
    · exact hframed.under.of_mem hframe
  obtain ⟨_, is, k, hstanding, o, w, hactive⟩ := hstands
  exact ⟨o, is, hactive.plays, hactive.code, hstanding.lists⟩

/-! ### The numbers of closures -/

theorem nextIdentity_of_turn (hreaches : Reaches nativeHost E.first m) {i : Instruction}
    {m₁ : Machine Console Value} (hfetches : m.Fetches i m₁)
    (hturn : Machine.turn nativeHost m = .next m') :
    m'.nextIdentity = m.nextIdentity + i.makes := by
  obtain ⟨frame, callers, pre, region, is, k, o, w, hframed, hstanding, -⟩ := exists_active hreaches
  obtain ⟨j, hj, -, heffect⟩ := hframed.effect hstanding hturn
  obtain ⟨j', hj', rfl⟩ := hstanding.fetched hframed.frames hfetches
  obtain rfl : j = j' := by simpa [hj] using hj'
  exact heffect.nextIdentity_eq

theorem nextIdentity_le (hreaches : Reaches nativeHost E.first m)
    (hlater : Reaches nativeHost m m') : m.nextIdentity ≤ m'.nextIdentity := by
  induction hlater with
  | refl => exact Nat.le_refl _
  | @tail m₁ m₂ hlater hturn ih =>
    obtain ⟨frame, callers, pre, region, is, k, o, w, hframed, hstanding, -⟩ :=
      exists_active (Relation.ReflTransGen.trans hreaches hlater)
    obtain ⟨i, -, -, heffect⟩ := hframed.effect hstanding hturn
    have hnext : m₂.nextIdentity = m₁.nextIdentity + i.value.makes := heffect.nextIdentity_eq
    omega

/-- After a closure is made, the next one has another number. -/
theorem eq_of_nextIdentity (hreaches : Reaches nativeHost E.first m) {j count : Nat}
    {m₁ m₂ : Machine Console Value} (hfetches : m.Fetches ⟨.closure, [j, count]⟩ m₁)
    (hturn : Machine.turn nativeHost m = .next m₂) (hlater : Reaches nativeHost m m')
    (hnext : m'.nextIdentity = m.nextIdentity) : m = m' := by
  rcases Relation.ReflTransGen.cases_head hlater with hsame | ⟨m₂', hturn', hlater⟩
  · exact hsame
  · obtain rfl : m₂ = m₂' := by simpa [hturn] using hturn'
    have hmade : m₂.nextIdentity = m.nextIdentity + 1 :=
      nextIdentity_of_turn hreaches hfetches hturn
    have hle := nextIdentity_le (Relation.ReflTransGen.tail hreaches hturn) hlater
    omega

/-- Closures that are made from different functions have different numbers. -/
theorem Makes.unique {j j' i : Nat} {free free' : List Value} (h : E.Makes m j i free)
    (h' : E.Makes m' j' i free') : j = j' := by
  obtain ⟨hreaches, hi, ⟨m₁, m₂, hfetches, hturn⟩, -⟩ := h
  obtain ⟨hreaches', hi', ⟨m₁', m₂', hfetches', hturn'⟩, -⟩ := h'
  have hunique : Relator.RightUnique fun a b : Machine Console Value =>
      Machine.turn nativeHost a = .next b := by
    intro a b c hb hc
    simpa [hb] using hc
  -- turns are a function, so one of the two machines comes after the other
  have hsame : m = m' := by
    rcases hreaches.total_of_right_unique hunique hreaches' with hlater | hlater
    · exact eq_of_nextIdentity hreaches hfetches hturn hlater (hi'.trans hi.symm)
    · exact (eq_of_nextIdentity hreaches' hfetches' hturn' hlater (hi.trans hi'.symm)).symm
  subst hsame
  have hinstruction := (exec_fetch hfetches).symm.trans (exec_fetch hfetches')
  simp at hinstruction
  exact hinstruction.1.1

/-- The number of the main code is none of theirs. -/
theorem Makes.ne_main {j i : Nat} {free : List Value} (h : E.Makes m j i free) :
    i ≠ (E.program.main E.identity).identity := by
  obtain ⟨hreaches, rfl, -⟩ := h
  have hle : E.first.nextIdentity ≤ m.nextIdentity := nextIdentity_le .refl hreaches
  have hfirst : E.first.nextIdentity = (E.program.main E.identity).identity + 1 := by
    rw [first, start_eq]
    rfl
  omega

/-- A frame runs one code. -/
theorem Plays.unique {o o' : Option Nat} {frame : Frame Value} (h : E.Plays o frame)
    (h' : E.Plays o' frame) : o = o' := by
  have hother : ∀ {j}, E.Plays none frame → ¬ E.Plays (some j) frame := by
    rintro j hmain ⟨m, hmakes⟩
    exact hmakes.ne_main (congrArg Closure.identity hmain)
  cases o with
  | none =>
    cases o' with
    | none => rfl
    | some j' => exact absurd h' (hother h)
  | some j =>
    cases o' with
    | none => exact absurd h (hother h')
    | some j' =>
      obtain ⟨m, hmakes⟩ := h
      obtain ⟨m', hmakes'⟩ := h'
      rw [hmakes.unique hmakes']

end Execution

end Bytescript
