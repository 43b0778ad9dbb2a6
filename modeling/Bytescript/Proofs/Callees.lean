/-
Calls by a name with a recorded number of parameters.

When a constant is declared with a function, the compiler records the number of its parameters, and
it checks calls by that name against it. The check is sound: what such a call finds at run time
under the name is a closure with as many parameters, or null, if the name has no value yet.

Main statement: `Execution.recorded_arity_sound`.

Design notes: `Execution.Unbound` says of a name that it has no value yet. A name may be called
where it was not declared, as a captured value or as the function's own name. What was captured is
what was found under the name in the call that made the closure, so there `Unbound` looks at that
call, and so on outwards. A function finds itself under its own name, which is never unbound.
-/
import Bytescript.Proofs.Bindings

namespace Bytescript

open Compile Machine

namespace Machine

/-- A closure that is called with the right number of arguments, and null, do not get a wrong number
of arguments. -/
theorem turn_call_ne_wrongCount {m m₁ : Machine Console Value} {below args : List Value}
    {callee : Value} (hcall : m.Fetches ⟨.call, [args.length]⟩ m₁)
    (hstack : m.stack = (below ++ callee :: args).toArray) (htakes : callee.Takes args.length)
    (expected given : Nat) (m' : Machine Console Value) :
    turn nativeHost m ≠ .halt (.fault (.wrongArgumentCount expected given), m') := by
  intro hturn
  have hcall' := hcall
  obtain ⟨frame, callers, -, -, rfl⟩ := hcall'
  rcases htakes with rfl | ⟨identity, f, free, rfl, hparams⟩
  · rw [turn_call_notCallable (by simp) (by simp) hcall hstack] at hturn
    cases hturn
  · by_cases hdepth : (m.goTo (frame.ip + Opcode.call.width)).calls.depth < m.config.maxFrames
    · rcases turn_call_closure hcall hstack hparams.symm hdepth with ⟨-, hentered⟩ | ⟨-, _, hfull⟩
      · rw [hentered] at hturn
        cases hturn
      · rw [hfull] at hturn
        cases hturn
    · rw [turn_call_tooDeep hcall hstack hparams.symm (Nat.not_lt.mp hdepth)] at hturn
      cases hturn

end Machine

namespace Execution

variable {E : Execution} {m m' : Machine Console Value} {o : Option Nat} {w site : Site}
  {f : Frame Value} {inner outer : List (Frame Value)} {n a : Nat}

/-! ### Names that have a value keep one -/

/-- What is stored under a name with a recorded number of parameters is a closure with as many. -/
theorem exists_of_store (hreaches : Reaches nativeHost E.first m) (hframes : m.frames = f :: outer)
    {i : Instruction} {m₁ : Machine Console Value} (hfetches : m.Fetches i m₁) {storage : Storage}
    (htargets : i.Targets storage n) (hturn : turn nativeHost m = .next m') :
    ∃ o w v, E.Plays o f ∧ Whole {} E.ast o w ∧
      (∀ {a}, (w.table E.last.scopes.root storage).Knows storage n a → v.HasParams a) ∧
      ((storage = .globalSlot ∧ m'.globals = storeGlobal m.globals n v) ∨
        (storage = .localSlot ∧ m'.stack[f.base + n]? = some v)) := by
  obtain ⟨pre, region, is, k, o, w, hframed, hstanding, hactive⟩ :=
    exists_active_of_frames hreaches hframes
  obtain ⟨j, hj, rfl⟩ := hstanding.fetched hframes hfetches
  obtain ⟨j', hj', -, heffect⟩ := hframed.effect hstanding hturn
  obtain rfl : j = j' := by simpa [hj] using hj'
  obtain ⟨r, v, rfl, hstored⟩ := heffect.of_targets htargets
  refine ⟨o, w, v, hactive.plays, hactive.whole,
    fun hknows => hactive.hasParams_of_store hstanding hj htargets hknows, ?_⟩
  rcases hstored with ⟨hglobal, rfl⟩ | ⟨hlocal, hn, rfl⟩
  · exact .inl ⟨hglobal, rfl⟩
  · refine .inr ⟨hlocal, ?_⟩
    rw [hframed.base]
    simp [hn]

theorem global_of_store (hreaches : Reaches nativeHost E.first m)
    (hknows : E.last.scopes.root.Knows .globalSlot n a) (hstores : m.StoresTo n)
    (hturn : turn nativeHost m = .next m') : (globalValue m'.globals n).HasParams a := by
  obtain ⟨i, m₁, hfetches, hstores⟩ := hstores
  obtain ⟨frame, callers, _, _, _, _, _, w, hframed, hstanding, hactive⟩ := exists_active hreaches
  obtain ⟨j, hj, rfl⟩ := hstanding.fetched hframed.frames hfetches
  rw [hactive.instructions] at hj
  have htargets := hstores.targets (hactive.whole.proper hj)
  obtain ⟨_, w', v, -, -, hparams, ⟨-, hglobals⟩ | ⟨hlocal, -⟩⟩ :=
    exists_of_store hreaches hframed.frames hfetches htargets hturn
  · rw [hglobals, globalValue_storeGlobal, if_pos rfl]
    exact hparams hknows
  · cases hlocal

/-- A global that has a value keeps one. -/
theorem global_of_reaches (hreaches : Reaches nativeHost E.first m)
    (hknows : E.last.scopes.root.Knows .globalSlot n a)
    (hvalue : (globalValue m.globals n).HasParams a) (hlater : Reaches nativeHost m m') :
    (globalValue m'.globals n).HasParams a := by
  induction hlater with
  | refl => exact hvalue
  | @tail m₁ m₂ hlater hturn ih =>
    by_cases hstores : m₁.StoresTo n
    · exact global_of_store (hreaches.trans hlater) hknows hstores hturn
    · have hkept : ReachesUnstored nativeHost n m₁ m₂ := .single ⟨hturn, hstores⟩
      rw [globalValue, join_globals_of_reaches hkept]
      exact ih

theorem local_of_store (hreaches : Reaches nativeHost E.first m)
    (hframes : m.frames = inner ++ f :: outer) (hplays : E.Plays o f) (hwhole : Whole {} E.ast o w)
    (hknows : w.stateAfter.scopes.current.Knows .localSlot n a)
    (hlocals : n < f.closure.code.locals) (hsets : m.SetsLocal (f.base + n))
    (hturn : turn nativeHost m = .next m') :
    ∃ v, m'.stack[f.base + n]? = some v ∧ v.HasParams a := by
  obtain ⟨rfl, _, _, _, i, m₁, -, -, -, -, -, hfetches, htargets⟩ :=
    exists_of_setsLocal hreaches hframes hlocals hsets
  obtain ⟨o', w', v, hplays', hwhole', hparams, ⟨hglobal, -⟩ | ⟨-, hstack⟩⟩ :=
    exists_of_store hreaches hframes hfetches htargets hturn
  · cases hglobal
  · obtain rfl := hplays.unique hplays'
    obtain rfl := hwhole.unique CompilerState.valid_init hwhole'
    exact ⟨v, hstack, hparams hknows⟩

/-- A local that has a value keeps one while its call is active. -/
theorem local_of_above (hreaches : Reaches nativeHost E.first m)
    (hframes : m.frames = inner ++ f :: outer) (hplays : ∀ ip, E.Plays o { f with ip })
    (hwhole : Whole {} E.ast o w) (hknows : w.stateAfter.scopes.current.Knows .localSlot n a)
    (hlocals : n < f.closure.code.locals)
    (hvalue : ∃ v, m.stack[f.base + n]? = some v ∧ v.HasParams a)
    (habove : ReachesAbove nativeHost outer.length m m') :
    ∃ v, m'.stack[f.base + n]? = some v ∧ v.HasParams a := by
  induction habove with
  | refl => exact hvalue
  | @tail m₁ m₂ habove hturn ih =>
    have hreaches₁ := hreaches.trans (ReachesAbove.reaches habove)
    obtain ⟨inner', ip, -, hframes'⟩ := frames_of_above hreaches hframes habove
    by_cases hsets : m₁.SetsLocal (f.base + n)
    · exact local_of_store (f := { f with ip }) hreaches₁ hframes' (hplays ip) hwhole hknows hlocals
        hsets hturn.1
    · rw [getElem?_stack_of_turn (f := { f with ip }) hreaches₁ hframes' hlocals hsets hturn.1
        hturn.2]
      exact ih

/-! ### Names without a value -/

/-- The name has no value yet. The declaration of a global has not been executed in the run, and
that of a local not in the running call. A captured name had no value yet in the call that made the
closure. -/
inductive Unbound (E : Execution) : Machine Console Value → Storage → Nat → Prop where
  | global {m : Machine Console Value} {n : Nat} :
      (∀ {m₀ m₁}, Reaches nativeHost E.first m₀ → m₀.StoresTo n → turn nativeHost m₀ = .next m₁ →
        ¬ Reaches nativeHost m₁ m) → Unbound E m .globalSlot n
  | slot {m : Machine Console Value} {frame : Frame Value} {callers : List (Frame Value)}
      {n : Nat} : m.frames = frame :: callers →
      (∀ {m₀ m₁ ip}, Reaches nativeHost E.first m₀ → m₀.frames = { frame with ip } :: callers →
        m₀.SetsLocal (frame.base + n) → turn nativeHost m₀ = .next m₁ →
        ¬ ReachesAbove nativeHost callers.length m₁ m) → Unbound E m .localSlot n
  | captured {m m₀ : Machine Console Value} {frame : Frame Value} {callers : List (Frame Value)}
      {j c : Nat} {body : Site} {outside : Symbol} : m.frames = frame :: callers →
      E.Makes m₀ j frame.closure.identity frame.closure.free → Whole {} E.ast (some j) body →
      body.stateAfter.scopes.current.captures[c]? = some outside →
      Unbound E m₀ outside.storage outside.index → Unbound E m .captured c

variable {frame : Frame Value} {callers : List (Frame Value)} {pre region : List Value}
  {is : List (Located Instruction)} {k : Nat}

theorem Unbound.of_global (hknows : E.last.scopes.root.Knows .globalSlot n a)
    (hnull : globalValue m.globals n = .null) : E.Unbound m .globalSlot n := by
  refine .global fun hreaches₀ hstores hturn hlater => ?_
  have hstored := global_of_store hreaches₀ hknows hstores hturn
  obtain ⟨_, _, _, hvalue, -⟩ := global_of_reaches (hreaches₀.tail hturn) hknows hstored hlater
  rw [hnull] at hvalue
  cases hvalue

theorem Unbound.of_slot
    (hframed : Framed (Stands (E.Known m.globals)) [] [] m frame callers pre region)
    (hactive : E.Active m.globals o w is k frame region)
    (hknows : w.stateAfter.scopes.current.Knows .localSlot n a) (hnull : region[n]? = some .null) :
    E.Unbound m .localSlot n := by
  refine .slot hframed.frames fun {m₀ m₁ ip} hreaches₀ hframes₀ hsets hturn habove => ?_
  have hplays : ∀ ip, E.Plays o { frame with ip } := by
    intro ip
    cases o with
    | none => exact hactive.plays
    | some j => exact hactive.plays
  have hlocals := (hactive.whole.slot_of_knows E.compiles hactive.code hknows).2
  have hframes₀' : m₀.frames = [] ++ { frame with ip } :: callers := hframes₀
  have hstored : ∃ v, m₁.stack[frame.base + n]? = some v ∧ v.HasParams a :=
    local_of_store (f := { frame with ip }) hreaches₀ hframes₀' (hplays ip) hactive.whole hknows
      hlocals hsets hturn
  obtain ⟨-, _, _, _, i, m₂, -, -, -, -, -, hfetches, htargets⟩ :=
    exists_of_setsLocal hreaches₀ hframes₀' hlocals hsets
  obtain ⟨inner, ip', -, hframes₁⟩ :=
    frames_of_store hreaches₀ hframes₀ hfetches htargets hturn .refl
  obtain ⟨v, hv, _, _, _, rfl, -⟩ := local_of_above (f := { frame with ip := ip' })
    (hreaches₀.tail hturn) hframes₁ hplays hactive.whole hknows hlocals hstored habove
  -- the slot still holds null
  rw [hframed.stack, List.getElem?_toArray, hframed.base,
    List.getElem?_append_right (Nat.le_add_right ..), Nat.add_sub_cancel_left, hnull] at hv
  cases hv

/-- Null is found only under a name that has no value yet. The induction goes outwards, from a
function to the one around it, which comes later in the pool. -/
theorem Unbound.of_null {storage : Storage} (d : Nat)
    (hdepth : ∀ {j}, o = some j → E.program.constants.size ≤ j + d)
    (hframed : Framed (Stands (E.Known m.globals)) [] [] m frame callers pre region)
    (hactive : E.Active m.globals o w is k frame region)
    (hrecords : Records E.program E.last o w (.name storage n) a)
    (hnull : (Origin.name storage n).Provides m.globals frame region .null) :
    E.Unbound m storage n := by
  induction d using Nat.strongRecOn generalizing m o w n storage frame callers pre region is k with
  | ind d ih =>
  cases hrecords with
  | global hknows => exact .of_global hknows (Eq.symm hnull)
  | slot hknows => exact .of_slot hframed hactive hknows hnull
  | self => cases hnull
  | captured hknows =>
    cases o with
    | none => exact absurd hknows (hactive.whole.not_knows_of_none E.compiles (.inr rfl))
    | some j =>
      obtain ⟨m₀, hmakes⟩ := hactive.plays
      have hmade := hmakes
      obtain ⟨hreaches₀, -, ⟨m₁, m₂, hfetches, -⟩, below, hstack⟩ := hmade
      obtain ⟨frame₀, callers₀, pre₀, region₀, is₀, k₀, o₀, w₀, hframed₀, hstanding₀, hactive₀⟩ :=
        exists_active hreaches₀
      obtain ⟨⟨_, span⟩, hi, rfl⟩ := hstanding₀.fetched hframed₀.frames hfetches
      -- the call that made the closure had what it captures on top of its own part of the stack
      obtain ⟨r, rfl⟩ : frame.closure.free <:+ region₀ := by
        obtain ⟨l, -, hcompiled⟩ := hstanding₀.lists.compiled
        have hpops : (frame.closure.free.length : Int) ≤ rise (is₀.take k₀) :=
          (hcompiled.balanced hi).pops
        have hheight := hstanding₀.height
        rw [hframed₀.stack] at hstack
        exact List.suffix_of_suffix_length_le ⟨below, rfl⟩ ⟨pre₀, List.toArray_inj hstack⟩
          (by omega)
      obtain ⟨body, hbody, hcaptured⟩ := hactive₀.exists_captured hstanding₀ hi
      obtain rfl := hactive.whole.unique CompilerState.valid_init hbody
      obtain ⟨outside, v, hsymbol, hrecords₀, hv, hprovides⟩ := hcaptured hknows
      obtain rfl : v = .null := Option.some.inj (hv.symm.trans hnull)
      have hsize := hdepth rfl
      have hj := (Array.getElem?_eq_some_iff.mp (Program.codeOf?_some.mp hactive.code)).1
      refine .captured hframed.frames hmakes hactive.whole hsymbol
        (ih (d - 1) (by omega) (fun {j'} hj' => ?_) hframed₀ hactive₀ hrecords₀ hprovides)
      -- the function around comes later in the pool, so fewer are left outside of it
      subst hj'
      rw [hactive₀.instructions] at hi
      have := hactive₀.whole.lt_of_closure hi
      omega

/-! ### Calls by a name -/

/-- At the site a name is called, and the compiler finds the symbol for it. -/
structure Calls (E : Execution) (o : Option Nat) (site : Site) (symbol : Symbol) : Prop where
  occurs : Occurs {} E.ast o site
  resolves : ∃ name nameSpan args span st,
    site.piece = .expr (.call (.identifier name nameSpan) args span) ∧
    (resolve name nameSpan).run site.state = .ok (symbol, st)

/-- What a call by a name with a recorded number of parameters calls is what the name stands for. -/
theorem Calls.callee {symbol : Symbol} {i : Instruction} (h : E.Calls o site symbol)
    (harity : symbol.arity? = some a) (hreaches : Reaches nativeHost E.first m)
    (hcompletes : E.Completes o site i m) :
    i = ⟨.call, [a]⟩ ∧ ∃ below callee args, args.length = a ∧
      m.stack = (below ++ callee :: args).toArray ∧ callee.Takes a ∧
      (callee = .null → E.Unbound m symbol.storage symbol.index) := by
  obtain ⟨name, nameSpan, exprs, span, st, hpiece, hresolve⟩ := h.resolves
  obtain ⟨frame, callers, m₁, hframes, hplays, hfetches, hstop⟩ := hcompletes
  obtain ⟨pre, region, is, k, o', w, hframed, hstanding, hactive⟩ :=
    exists_active_of_frames hreaches hframes
  obtain rfl := hactive.plays.unique hplays
  obtain rfl := hactive.instructions
  obtain ⟨j, hj, rfl⟩ := hstanding.fetched hframes hfetches
  -- it stands before the instruction with which the site ends
  obtain ⟨w', hwhole', hwithin⟩ := h.occurs.exists_whole
  obtain rfl := hactive.whole.unique CompilerState.valid_init hwhole'
  obtain ⟨k', hk', hstop', hrecords, hheld⟩ :=
    hwhole'.held_of_call E.compiles hwithin hpiece hresolve harity
  have hlast : offsetAt w.instructions (k + 1) = offsetAt w.instructions (k' + 1) := by
    rw [offsetAt_succ hj, hstop', ← hstop, hstanding.ip]
  obtain rfl : k = k' := by
    have hlt := (List.getElem?_eq_some_iff.mp hj).1
    have hlt' := (List.getElem?_eq_some_iff.mp hk').1
    have := offsetAt_injective hlt hlt' hlast
    omega
  obtain rfl : j = ⟨⟨.call, [a]⟩, span⟩ := by simpa [hj] using hk'
  -- the callee lies under the arguments
  obtain ⟨l, -, hcompiled⟩ := hstanding.lists.compiled
  have hpops : ((a + 1 : Nat) : Int) ≤ rise (w.instructions.take k) := (hcompiled.balanced hj).pops
  have hheight := hstanding.height
  have hlength : 1 + a ≤ region.length := by omega
  obtain ⟨callee, hcallee, hprovides⟩ :=
    hactive.held (n := region.length - (1 + a)) hheld (by omega)
  obtain ⟨hlt, hat⟩ := List.getElem?_eq_some_iff.mp hcallee
  refine ⟨rfl, pre ++ region.take (region.length - (1 + a)), callee,
    region.drop (region.length - (1 + a) + 1), ?_, ?_,
    hactive.takes_of_provides (informed hreaches) hrecords hprovides, ?_⟩
  · rw [List.length_drop]
    omega
  · rw [hframed.stack, List.append_assoc, ← hat, List.getElem_cons_drop, List.take_append_drop]
  · rintro rfl
    exact .of_null _ (fun _ => Nat.le_add_left ..) hframed hactive hrecords hprovides

/-- Recorded numbers of parameters are sound. A call by a name with such a number passes as many
arguments, and it is not answered with a wrong number of arguments: what it calls is a closure with
as many parameters, or null, if the name has no value yet. -/
theorem recorded_arity_sound {symbol : Symbol} {i : Instruction}
    (hreaches : Reaches nativeHost E.first m) (hcalls : E.Calls o site symbol)
    (harity : symbol.arity? = some a) (hcompletes : E.Completes o site i m) :
    i = ⟨.call, [a]⟩ ∧ ∃ below callee args, args.length = a ∧
      m.stack = (below ++ callee :: args).toArray ∧
      ((callee = .null ∧ E.Unbound m symbol.storage symbol.index) ∨
        ∃ identity f free, callee = .closure identity f free ∧ f.params = a) ∧
      ∀ expected given m',
        turn nativeHost m ≠ .halt (.fault (.wrongArgumentCount expected given), m') := by
  obtain ⟨rfl, below, callee, args, rfl, hstack, htakes, hunbound⟩ :=
    hcalls.callee harity hreaches hcompletes
  obtain ⟨_, _, m₁, -, -, hfetches, -⟩ := hcompletes
  refine ⟨rfl, below, callee, args, rfl, hstack, ?_, turn_call_ne_wrongCount hfetches hstack htakes⟩
  rcases htakes with hnull | hclosure
  · exact .inl ⟨hnull, hunbound hnull⟩
  · exact .inr hclosure

end Execution

namespace DeepCall

/-- `let g = fn(x) { x }` -/
def constant : Stmt :=
  .declare .constant "g"
    (.function (some "g") [⟨"x", {}⟩] (.mk [.expression (.identifier "x" {}) {}] {}) {}) {}

/-- `g(1)` -/
def call : Expr :=
  .call (.identifier "g" {}) [.integer 1 {}] {}

def inner : Block :=
  .mk [.expression call {}] {}

def middle : Block :=
  .mk [.expression (.function none [] inner {}) {}] {}

def outer : Block :=
  .mk [constant, .expression (.function none [] middle {}) {}] {}

def function : Expr :=
  .function (some "h") [] outer {}

end DeepCall

/-- `let h = fn() { let g = fn(x) { x }; fn() { fn() { g(1) } } }; h()()()`: the constant `g` is
called two functions further in than it is declared. -/
def deepCall : Ast :=
  ⟨[.declare .constant "h" DeepCall.function {},
    .expression (.call (.call (.call (.identifier "h" {}) [] {}) [] {}) [] {}) {}]⟩

/-- What the compiler does before it comes to the call of `g`. -/
theorem compile_deepCall :
    (((declareName .constant "h" DeepCall.function {}).run {}).toOption.bind fun r₁ =>
      ((enterFunction (some "h") []).run r₁.2).toOption.bind fun r₂ =>
      ((Piece.compileAll [.stmt DeepCall.constant] {}).run r₂.2).toOption.bind fun r₃ =>
      ((enterFunction none []).run r₃.2).toOption.bind fun r₄ =>
      ((enterFunction none []).run r₄.2).toOption.bind fun r₅ =>
      (((Piece.block .body DeepCall.inner).compile {}).run r₅.2).toOption.bind fun r₆ =>
      (((Piece.expr DeepCall.call).compile {}).run r₅.2).toOption.bind fun r₇ =>
      ((resolve "g" {}).run r₅.2).toOption.map fun r₈ =>
        (r₆.2.constants.size, r₇.1.stop, r₈.1.storage, r₈.1.arity?)) =
    some (2, 7, .captured, some 1) := by
  decide +kernel

theorem deepCall_calls (E : Execution) (hast : E.ast = deepCall) :
    ∃ site symbol, E.Calls (some 2) site symbol ∧ symbol.storage = .captured ∧
      symbol.arity? = some 1 ∧ site.codeAfter.stop = 7 := by
  obtain ⟨w, hwhole, -⟩ := exists_program .init E.compiles
  have hw := hwhole.occurs
  cases hwhole with | program hpiece hcode hstate =>
  rw [hast] at hpiece
  -- the declaration of `h`, the function and its body
  obtain ⟨s₁, h₁, hs₁, -, hprepare⟩ := hw.exists_first (by rw [hpiece]; rfl)
  rw [hpiece, hstate] at hprepare
  obtain ⟨-, hstate₁⟩ := pure_ok.mp hprepare
  obtain ⟨_, v, hdeclare, hpart, hv, -⟩ := s₁.declare_ok hs₁
  rw [← hstate₁] at hdeclare
  obtain ⟨_, b₁, hb₁, hblock₁, hcode₁, henter₁, -⟩ := (h₁.part hpart).exists_body hv
  -- the function in it, behind the declaration of `g`, and its body
  have hparts : b₁.piece.parts = [.stmt DeepCall.constant] ++
      Piece.expr (.function none [] DeepCall.middle {}) :: [] := by rw [hblock₁]; rfl
  obtain ⟨_, s₂, h₂, hs₂, hprepare, hconstant⟩ := hb₁.exists_part hparts
  rw [hblock₁] at hprepare
  obtain ⟨-, rfl⟩ := pure_ok.mp hprepare
  rw [hcode₁] at hconstant
  obtain ⟨_, b₂, hb₂, hblock₂, -, henter₂, -⟩ := h₂.exists_body hs₂
  -- the innermost function, its body and the call
  obtain ⟨s₃, h₃, hs₃, -, hprepare⟩ := hb₂.exists_first (by rw [hblock₂]; rfl)
  rw [hblock₂] at hprepare
  obtain ⟨-, hstate₃⟩ := pure_ok.mp hprepare
  obtain ⟨j, b₃, hb₃, hblock₃, hcode₃, henter₃, hj⟩ := h₃.exists_body hs₃
  rw [← hstate₃] at henter₃
  have hinner := b₃.runs
  rw [hblock₃, hcode₃] at hinner
  obtain ⟨s₄, h₄, hs₄, hcode₄, hprepare⟩ := hb₃.exists_first (by rw [hblock₃]; rfl)
  rw [hblock₃] at hprepare
  obtain ⟨-, hstate₄⟩ := pure_ok.mp hprepare
  have hcall := s₄.runs
  rw [hs₄, hcode₄, hcode₃, ← hstate₄] at hcall
  have hchain := compile_deepCall
  simp only [hdeclare, henter₁, hconstant, henter₂, henter₃, hinner, hcall, Except.toOption,
    Option.bind_some, Option.map_eq_some_iff, Prod.mk.injEq, Prod.exists] at hchain
  obtain ⟨symbol, st, hresolve, hsize, hstop, hstorage, harity⟩ := hchain
  obtain rfl : j = 2 := hj.symm.trans hsize
  rw [hstate₄] at hresolve
  exact ⟨s₄, symbol, ⟨h₄, _, _, _, _, st, hs₄, eq_ok_of_toOption hresolve⟩, hstorage, harity,
    hstop⟩

theorem run_deepCall : ((compileFrom {} deepCall).toOption.bind fun r =>
    (after nativeHost 11 (start nativeHost {} r.1 #[] {} 0)).bind fun m₀ =>
      (after nativeHost 1 m₀).bind fun m₁ => (after nativeHost 4 m₁).map fun m =>
        ((m₀.next?, m₀.stack.size, m₀.nextIdentity),
          (m.next?, m.frames.map fun f => (f.ip, f.closure.identity)),
          m.stack.toList.map Value.typeName)) =
    some ((some ⟨.closure, [2, 1]⟩, 2, 9), (some ⟨.call, [1]⟩, [(5, 9), (16, 5)]),
      ["Closure", "Closure", "Integer"]) := by
  decide +kernel

/-- The number that is recorded for `g` holds where it is called. -/
theorem deepCall_arity_sound : ∃ (E : Execution) (m : Machine Console Value) (site : Site)
    (symbol : Symbol), E.ast = deepCall ∧ Reaches nativeHost E.first m ∧
    E.Calls (some 2) site symbol ∧ symbol.storage = .captured ∧ symbol.arity? = some 1 ∧
    E.Completes (some 2) site ⟨.call, [1]⟩ m ∧
    (∃ below identity f free arg, m.stack = (below ++ [.closure identity f free, arg]).toArray ∧
      f.params = 1) ∧
    ∀ expected given m',
      turn nativeHost m ≠ .halt (.fault (.wrongArgumentCount expected given), m') := by
  obtain ⟨⟨p, last⟩, hcompile, h⟩ := Option.bind_eq_some_iff.mp run_deepCall
  obtain ⟨m₀, hm₀, h⟩ := Option.bind_eq_some_iff.mp h
  obtain ⟨m₁, hm₁, h⟩ := Option.bind_eq_some_iff.mp h
  obtain ⟨m, hm, h⟩ := Option.map_eq_some_iff.mp h
  simp only [Prod.mk.injEq] at h
  obtain ⟨⟨hnext₀, hsize, hidentity⟩, ⟨hnext, hframes⟩, htypes⟩ := h
  let E : Execution := ⟨deepCall, p, last, eq_ok_of_toOption hcompile, {}, 0⟩
  have hreaches₀ : Reaches nativeHost E.first m₀ := reaches_of_after hm₀
  have hturn : turn nativeHost m₀ = .next m₁ := turn_of_after_one hm₁
  have hreaches : Reaches nativeHost E.first m := (hreaches₀.tail hturn).trans (reaches_of_after hm)
  obtain ⟨site, symbol, hcalls, hstorage, harity, hstop⟩ := deepCall_calls E rfl
  -- the running closure is made from the constant at the index 2
  obtain ⟨f, outer, hframes, hf, houter⟩ := List.map_eq_cons_iff.mp hframes
  simp only [Prod.mk.injEq] at hf
  obtain ⟨hip, hclosure⟩ := hf
  obtain ⟨_, hfetches₀⟩ := fetches_of_next? hnext₀
  obtain ⟨x, y, hstack₀⟩ := List.length_eq_two.mp (Array.length_toList.trans hsize)
  have hmakes : E.Makes m₀ 2 9 [y] := by
    refine ⟨hreaches₀, hidentity, ⟨_, m₁, hfetches₀, hturn⟩, [x], ?_⟩
    rw [← Array.toList_inj, hstack₀]
    rfl
  have hmem : f ∈ m.frames := by simp [hframes]
  obtain ⟨o, -, hplays, -⟩ := Execution.exists_plays hreaches hmem
  cases o with
  | none =>
    rw [Execution.callers_of_main hreaches hframes hplays] at houter
    cases houter
  | some j =>
    have hj : j = 2 := by
      obtain ⟨m', hmakes'⟩ := hplays
      rw [hclosure] at hmakes'
      exact hmakes'.unique hmakes
    subst hj
    obtain ⟨_, hfetches⟩ := fetches_of_next? hnext
    have hcompletes : E.Completes (some 2) site ⟨.call, [1]⟩ m :=
      ⟨f, outer, _, hframes, hplays, hfetches, by rw [hip, hstop]; rfl⟩
    obtain ⟨-, below, callee, args, hargs, hstack, hcallee, hcount⟩ :=
      Execution.recorded_arity_sound hreaches hcalls harity hcompletes
    refine ⟨E, m, site, symbol, rfl, hreaches, hcalls, hstorage, harity, hcompletes, ?_, hcount⟩
    obtain ⟨arg, rfl⟩ := List.length_eq_one_iff.mp hargs
    rcases hcallee with ⟨rfl, -⟩ | ⟨identity, f, free, rfl, hparams⟩
    · have hsecond := congrArg (·.reverse[1]?) htypes
      simp [hstack, Value.typeName] at hsecond
    · exact ⟨below, identity, f, free, arg, hstack, hparams⟩

end Bytescript
