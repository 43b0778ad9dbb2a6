/-
Constants keep their values.

The slot of a constant is filled by the instruction that ends its declaration, and by no other:
slots are not given away twice, and what stores in a slot later on is an assignment, which the
compiler accepts for variables only. A call goes through its code in one direction, so that
instruction is executed at most once in it. Parameters are filled by the call itself.

Main statement: `Execution.constants_stored_once`.

Design notes: the locals of a call lie on the stack from its base on. That another call stores there
is excluded by their place: its own locals lie above those of its callers.
-/
import Bytescript.Proofs.Activations
import Bytescript.Proofs.GlobalSlots

namespace Bytescript

/-! ### Instructions that fill the slots of constants -/

namespace Compile

variable {ast : Ast} {p : Program} {last : CompilerState} {o : Option Nat} {w : Site} {k n : Nat}
  {i : Located Instruction}

/-- What stores in the slot of a constant is the last instruction of its declaration. -/
theorem Whole.store_of_constant (hcompile : compileFrom {} ast = .ok (p, last))
    (h : Whole {} ast o w) {storage : Storage} (hi : w.instructions[k]? = some i)
    (htargets : i.value.Targets storage n) {o' : Option Nat} {site : Site}
    (hsite : Occurs {} ast o' site) {name : String} {value : Expr} {span : Span}
    (hpiece : site.piece = .stmt (.declare .constant name value span))
    (hstorage : site.state.scopes.slotStorage = storage)
    (hn : site.state.scopes.current.definitions = n) (hsame : o = o' ∨ storage = .globalSlot) :
    o = o' ∧ site.codeAfter.stop = offsetAt w.instructions (k + 1) ∧
      i.value = ⟨if storage = .globalSlot then .setGlobal else .setLocal, [n]⟩ := by
  obtain ⟨w', hwhole', hwithin'⟩ := hsite.exists_whole
  have htable : w.table last.scopes.root storage = w'.table last.scopes.root storage := by
    rcases hsame with rfl | rfl
    · rw [h.unique CompilerState.valid_init hwhole']
    · rfl
  rcases h.store_cases hcompile hi htargets with
    ⟨s, mutability, name', value', span', hs, hpiece', hstop, hstorage', hn', hvalue⟩ |
    ⟨name', symbol, hentry, hsymbol, hindex, hmutable⟩
  · have hcode : o = o' := by
      rcases hsame with hcode | hglobal
      · exact hcode
      · rw [hsite.eq_none_of_global (hstorage.trans hglobal),
          (h.occurs.of_within hs).eq_none_of_global (hstorage'.trans hglobal)]
    subst hcode
    obtain rfl := h.unique CompilerState.valid_init hwhole'
    obtain rfl : s = site := Within.eq_of_definitions hs hwithin'
      (h.occurs.valid CompilerState.valid_init) hpiece' hpiece (hn'.trans hn.symm)
    exact ⟨rfl, hstop, hvalue⟩
  · -- what is assigned is no constant
    have hdeclared := hwhole'.declared hcompile hwithin' hpiece
    rw [hstorage, hn, ← htable] at hdeclared
    have hslot : storage = .globalSlot ∨ storage = .localSlot := by
      rw [← hstorage]
      exact site.state.scopes.slotStorage_cases
    obtain rfl := (h.sound_table hcompile storage).slot_unique hentry hdeclared
      (by rw [Symbol.IsSlot, hsymbol]; exact hslot) hslot hindex
    rw [hentry] at hdeclared
    cases hdeclared
    exact absurd rfl hmutable

/-- Nothing stores in the slot of a parameter. -/
theorem Whole.not_targets_param (hcompile : compileFrom {} ast = .ok (p, last))
    (h : Whole {} ast o w) {f : FunctionCode} (hf : p.codeOf? o = some f) (hn : n < f.params)
    (hi : w.instructions[k]? = some i) : ¬ i.value.Targets .localSlot n := by
  intro htargets
  obtain ⟨hlt, name, symbol, hentry, hstorage, hindex, hconstant, -⟩ := h.param hcompile hf hn
  rcases h.store_cases hcompile hi htargets with
    ⟨s, mutability, name', value, span, hs, -, -, -, hslot, -⟩ |
    ⟨name', symbol', hentry', hstorage', hindex', hmutable⟩
  · -- a declaration comes after the parameters
    have hvalid := h.occurs.valid CompilerState.valid_init
    have hle := (Within.later hs hvalid).2.1.definitions_le
    omega
  · have hsound := h.sound_table hcompile .localSlot
    -- an assignment goes to a variable, and parameters are constants
    obtain rfl := hsound.slot_unique hentry hentry' (.inr hstorage) (.inr hstorage')
      (hindex.trans hindex'.symm)
    have hsame : some symbol = some symbol' := hentry.symm.trans hentry'
    cases hsame
    exact hmutable hconstant

end Compile

open Compile Machine

/-- An instruction of proper code that stores in a global slot has the slot as its operand. -/
theorem Instruction.StoresTo.targets {i : Instruction} {l : Limits} {slot : Nat}
    (h : i.StoresTo slot) (hproper : i.Proper l) : i.Targets .globalSlot slot := by
  obtain ⟨hop, hslot⟩ := h
  cases hproper with
  | global _ _ => exact ⟨congrArg (fun n => [n]) hslot, .inl ⟨rfl, hop⟩⟩
  | constant | closure | captured | builtin | self | array | hash | call => simp at hop
  | slot hop' => rcases hop with rfl | rfl <;> simp at hop'
  | jump _ hjump => rcases hop with rfl | rfl <;> cases hjump
  | simple hwidths => rcases hop with rfl | rfl <;> cases hwidths

namespace Machine

/-- The machine is about to store a value in a local that lies at the position on the stack. -/
def SetsLocal (m : Machine Console Value) (position : Nat) : Prop :=
  ∃ op n m₁ frame callers, m.Fetches ⟨op, [n]⟩ m₁ ∧ (op = .setLocal ∨ op = .assignLocal) ∧
    m.frames = frame :: callers ∧ frame.base + n = position

end Machine

theorem getElem?_of_prefix {a b common : List Value} {x : Nat} (hx : x < common.length)
    (ha : common <+: a) (hb : common <+: b) : a.toArray[x]? = b.toArray[x]? := by
  rw [List.getElem?_toArray, List.getElem?_toArray, List.prefix_iff_getElem?.mp ha x hx,
    List.prefix_iff_getElem?.mp hb x hx]

namespace Execution

variable {E : Execution} {m m' m'' : Machine Console Value} {f : Frame Value}
  {inner outer : List (Frame Value)} {n : Nat}

/-! ### A call over its turns -/

theorem move (hreaches : Reaches nativeHost E.first m)
    (hturn : turn nativeHost m = .next m') :
    ∃ frame callers, m.frames = frame :: callers ∧ Move frame callers m'.frames := by
  have hfull : E.config.maxFrames - 1 + 1 ≤ max 1 E.config.maxFrames := by omega
  have hleads := leads_program E.compiles E.config E.identity hfull (.inl (by omega))
  exact (hleads.of_reaches hreaches).move hturn

/-- An active call goes on in its code until it is left. -/
theorem frames_of_above (hreaches : Reaches nativeHost E.first m)
    (hframes : m.frames = inner ++ f :: outer)
    (habove : ReachesAbove nativeHost outer.length m m') :
    ∃ inner' ip, f.ip ≤ ip ∧ m'.frames = inner' ++ { f with ip } :: outer := by
  induction habove with
  | refl => exact ⟨inner, f.ip, Nat.le_refl _, hframes⟩
  | @tail m₁ m₂ habove hturn ih =>
    obtain ⟨inner', ip, hle, hframes₁⟩ := ih
    have hreaches₁ := hreaches.trans (ReachesAbove.reaches habove)
    obtain ⟨frame, callers, hsplit, hmove⟩ := move hreaches₁ hturn.1
    have hdepth := hturn.2
    rw [hframes₁] at hsplit
    cases inner' with
    | nil =>
      -- it is the running call
      obtain ⟨rfl, rfl⟩ := List.cons.inj hsplit
      generalize m₂.frames = frames at hmove hdepth
      cases hmove with
      | within ip' hlt => exact ⟨[], ip', by simp at hlt; omega, rfl⟩
      | enter ip' callee hlt => exact ⟨[callee], ip', by simp at hlt; omega, rfl⟩
      | leave => omega
    | cons g rest =>
      obtain ⟨rfl, rfl⟩ := List.cons.inj hsplit
      generalize m₂.frames = frames at hmove hdepth
      cases hmove with
      -- the call waits for those further in, of which only the last one moves
      | within ip' => exact ⟨_ :: rest, ip, hle, rfl⟩
      | enter ip' callee => exact ⟨callee :: _ :: rest, ip, hle, rfl⟩
      | leave => exact ⟨rest, ip, hle, rfl⟩

/-- After a store the running call is further down in its code. -/
theorem frames_of_store (hreaches : Reaches nativeHost E.first m) (hframes : m.frames = f :: outer)
    {i : Instruction} {m₁ : Machine Console Value} (hfetches : m.Fetches i m₁) {storage : Storage}
    (htargets : i.Targets storage n) (hturn : turn nativeHost m = .next m')
    (habove : ReachesAbove nativeHost outer.length m' m'') :
    ∃ inner ip, f.ip < ip ∧ m''.frames = inner ++ { f with ip } :: outer := by
  obtain ⟨pre, region, is, k, o, w, hframed, hstanding, -⟩ :=
    exists_active_of_frames hreaches hframes
  obtain ⟨j, hj, -, heffect⟩ := hframed.effect hstanding hturn
  obtain ⟨j', hj', rfl⟩ := hstanding.fetched hframes hfetches
  obtain rfl : j = j' := by simpa [hj] using hj'
  -- a store goes on with the next instruction of the same call
  have hkept : m'.frames = (m.goTo (offsetAt is (k + 1))).frames := by
    obtain ⟨r, v, -, ⟨-, rfl⟩ | ⟨-, -, rfl⟩⟩ := heffect.of_targets htargets <;> rfl
  have hnext : m'.frames = [] ++ { f with ip := offsetAt is (k + 1) } :: outer := by
    rw [hkept, frames_goTo, hframes]
    rfl
  obtain ⟨inner, ip, hle, hlater⟩ := frames_of_above (hreaches.tail hturn) hnext habove
  refine ⟨inner, ip, ?_, hlater⟩
  have hwidth := offsetAt_succ hj
  have := Opcode.width_pos j.value.opcode
  have := hstanding.ip
  simp only at hle
  omega

/-- The call that stores in a local of an active call is that call. -/
theorem exists_of_setsLocal (hreaches : Reaches nativeHost E.first m)
    (hframes : m.frames = inner ++ f :: outer) (hn : n < f.closure.code.locals)
    (hsets : m.SetsLocal (f.base + n)) :
    inner = [] ∧ ∃ o w k i m₁, Whole {} E.ast o w ∧ E.Plays o f ∧
      E.program.codeOf? o = some f.closure.code ∧ f.ip = offsetAt w.instructions k ∧
      w.instructions[k]? = some i ∧ m.Fetches i.value m₁ ∧ i.value.Targets .localSlot n := by
  obtain ⟨op, n', m₁, frame', callers', hfetches, hop, hframes', hposition⟩ := hsets
  obtain ⟨pre, region, is, k, o, w, hframed, hstanding, hactive⟩ :=
    exists_active_of_frames hreaches hframes'
  obtain ⟨⟨_, span⟩, hi, rfl⟩ := hstanding.fetched hframes' hfetches
  rw [hframes] at hframes'
  cases inner with
  | cons g rest =>
    -- the locals of a caller lie further down
    obtain ⟨rfl, rfl⟩ := List.cons.inj hframes'
    have hcaller : f ∈ rest ++ f :: outer := by simp
    have hlt := hframed.under.locals_lt hcaller
    have := hframed.base
    omega
  | nil =>
    obtain ⟨rfl, rfl⟩ := List.cons.inj hframes'
    obtain rfl : n = n' := by omega
    obtain rfl := hactive.instructions
    exact ⟨rfl, o, w, k, _, m₁, hactive.whole, hactive.plays, hactive.code, hstanding.ip, hi,
      hfetches, rfl, .inr ⟨rfl, hop⟩⟩

/-- A call with fewer calls around it than the running one is among its callers. -/
theorem mem_callers {frame : Frame Value} {callers : List (Frame Value)}
    (h : frame :: callers = inner ++ f :: outer) (hlt : outer.length < callers.length) :
    f ∈ callers := by
  cases inner with
  | nil =>
    obtain ⟨rfl, rfl⟩ := List.cons.inj h
    exact absurd hlt (Nat.lt_irrefl _)
  | cons g rest =>
    obtain ⟨rfl, rfl⟩ := List.cons.inj h
    simp

/-- A local keeps its value in a turn that does not store there. -/
theorem getElem?_stack_of_turn (hreaches : Reaches nativeHost E.first m)
    (hframes : m.frames = inner ++ f :: outer) (hn : n < f.closure.code.locals)
    (hsets : ¬ m.SetsLocal (f.base + n)) (hturn : turn nativeHost m = .next m')
    (hdepth : outer.length < m'.frames.length) :
    m'.stack[f.base + n]? = m.stack[f.base + n]? := by
  obtain ⟨frame, callers, pre, region, is, k, o, w, hframed, hstanding, -⟩ := exists_active hreaches
  obtain ⟨i, hi, hfetches, heffect⟩ := hframed.effect hstanding hturn
  have hf : f ∈ m.frames := by simp [hframes]
  -- the locals of active calls lie below the operands of the instruction
  have hlt : ∀ {r top : List Value}, region = r ++ top → top.length ≤ i.value.pops →
      f.base + n < (pre ++ r).length := by
    rintro r top rfl htop
    have := hframed.locals_le hstanding hi htop hf
    omega
  rw [hframed.stack]
  generalize hinstruction : i.value = j at hfetches heffect hlt
  cases heffect with
  | gives htop =>
    exact getElem?_of_prefix (hlt rfl (Nat.le_of_eq htop)) ⟨_, List.append_assoc ..⟩
      ⟨_, List.append_assoc ..⟩
  | drops hop =>
    refine getElem?_of_prefix (hlt rfl ?_) List.prefix_rfl ⟨_, List.append_assoc ..⟩
    rcases hop with hop | hop <;> simp [Instruction.pops, hop]
  | jumps hop htop =>
    refine getElem?_of_prefix (hlt rfl ?_) List.prefix_rfl ⟨_, List.append_assoc ..⟩
    rw [htop]
    exact Instruction.taken_le_pops _
  | setsGlobal hop =>
    refine getElem?_of_prefix (hlt rfl ?_) List.prefix_rfl ⟨_, List.append_assoc ..⟩
    rcases hop with rfl | rfl <;> simp [Instruction.pops]
  | @setsLocal r v op n' hop hn' =>
    have hle : f.base + n < (pre ++ r).length :=
      hlt rfl (by rcases hop with rfl | rfl <;> simp [Instruction.pops])
    have hother : pre.length + n' ≠ f.base + n := by
      intro heq
      exact hsets ⟨op, n', _, frame, callers, hfetches, hop, hframed.frames, hframed.base ▸ heq⟩
    have hset : pre ++ r.set n' v = (pre ++ r).set (pre.length + n') v := by
      rw [List.set_append_right _ _ (Nat.le_add_right _ _), Nat.add_sub_cancel_left]
    show (pre ++ r.set n' v).toArray[f.base + n]? = _
    rw [hset, List.getElem?_toArray, List.getElem?_set_ne hother, List.getElem?_toArray,
      ← List.append_assoc, List.getElem?_append_left hle]
  | enters =>
    refine getElem?_of_prefix (hlt rfl ?_) ⟨_, (List.append_assoc ..).symm⟩
      ⟨_, List.append_assoc ..⟩
    simp [Instruction.pops]
  | leaves hreturns hcallers =>
    -- the call that is left is not this one
    have hleft : outer.length < (m.goTo (offsetAt is (k + 1))).frames.tail.length := hdepth
    rw [frames_goTo, hframed.frames] at hleft
    have hcaller : f ∈ callers := mem_callers (hframed.frames.symm.trans hframes) hleft
    have hbelow : f.base + n < pre.dropLast.length := by
      have := hframed.under.locals_lt hcaller
      rw [List.length_dropLast]
      omega
    exact getElem?_of_prefix hbelow ⟨_, rfl⟩ ((List.dropLast_prefix pre).trans ⟨_, rfl⟩)

/-- A local keeps its value while its call is active and nothing is stored there. -/
theorem getElem?_stack_of_above (hreaches : Reaches nativeHost E.first m)
    (hframes : m.frames = inner ++ f :: outer) (hn : n < f.closure.code.locals)
    (hnever : ∀ {m₁}, ReachesAbove nativeHost outer.length m m₁ → ¬ m₁.SetsLocal (f.base + n))
    (habove : ReachesAbove nativeHost outer.length m m') :
    m'.stack[f.base + n]? = m.stack[f.base + n]? := by
  induction habove with
  | refl => rfl
  | tail habove hturn ih =>
    obtain ⟨inner', ip, -, hframes'⟩ := frames_of_above hreaches hframes habove
    rw [← ih]
    exact getElem?_stack_of_turn (f := { f with ip }) (hreaches.trans (ReachesAbove.reaches habove))
      hframes' hn (hnever habove) hturn.1 hturn.2

/-- All of a run is above no calls. -/
theorem reachesAbove_zero (hreaches : Reaches nativeHost E.first m)
    (hlater : Reaches nativeHost m m') : ReachesAbove nativeHost 0 m m' := by
  induction hlater with
  | refl => exact .refl
  | tail hlater hturn ih =>
    exact ih.tail ⟨hturn, (informed ((hreaches.trans hlater).tail hturn)).rests.length_lt⟩

/-- Nothing calls the main code. -/
theorem callers_of_main (hreaches : Reaches nativeHost E.first m) (hframes : m.frames = f :: outer)
    (hplays : E.Plays none f) : outer = [] := by
  obtain ⟨pre, region, is, k, o, w, hframed, -, hactive⟩ :=
    exists_active_of_frames hreaches hframes
  have hbase := hactive.base.mp (hactive.plays.unique hplays)
  cases outer with
  | nil => rfl
  | cons g rest =>
    have hcaller : g ∈ g :: rest := List.mem_cons_self
    have := hframed.under.locals_lt hcaller
    have := hframed.base
    omega

/-! ### Constants -/

/-- At the site a name is declared, in the main code or in the function at an index of the pool, and
the compiler makes the symbol for it. -/
structure Declares (E : Execution) (o : Option Nat) (site : Site) (mutability : Mutability)
    (symbol : Symbol) : Prop where
  occurs : Occurs {} E.ast o site
  defines : ∃ name value span st, site.piece = .stmt (.declare mutability name value span) ∧
    (define name mutability span).run site.state = .ok (symbol, st)

namespace Declares

variable {o : Option Nat} {site : Site} {mutability : Mutability} {symbol : Symbol}

theorem symbol_eq (h : E.Declares o site mutability symbol) :
    symbol.storage = site.state.scopes.slotStorage ∧
      symbol.index = site.state.scopes.current.definitions := by
  obtain ⟨name, value, span, st, -, hdefine⟩ := h.defines
  obtain ⟨scopes, hscopes, -⟩ := withScopes_ok.mp hdefine
  obtain ⟨rfl, -⟩ := Scopes.define_ok hscopes
  exact ⟨rfl, rfl⟩

/-- The names of the main code are globals, those of functions are locals. -/
theorem storage_eq (h : E.Declares o site mutability symbol) :
    symbol.storage = if o.isNone then .globalSlot else .localSlot := by
  rw [h.symbol_eq.1, Scopes.slotStorage, h.occurs.isGlobal CompilerState.valid_init rfl]

/-- The function has room for the name. -/
theorem lt_locals {j : Nat} (h : E.Declares (some j) site mutability symbol) {code : FunctionCode}
    (hcode : E.program.codeOf? (some j) = some code) : symbol.index < code.locals := by
  obtain ⟨w, hwhole, hwithin⟩ := h.occurs.exists_whole
  obtain ⟨name, value, span, -, hpiece, -⟩ := h.defines
  obtain ⟨code', hcode', -, hlocals⟩ := hwhole.lists E.compiles
  obtain rfl : code = code' := by simpa [hcode] using hcode'
  obtain ⟨hvalid, -, hend⟩ := Within.later hwithin (hwhole.occurs.valid CompilerState.valid_init)
  have hlt := site.definitions_lt hvalid hpiece
  have hle := hend.definitions_le
  rw [hlocals, h.symbol_eq.2]
  exact Nat.lt_of_lt_of_le hlt hle

/-- Only the last instruction of its declaration stores in the slot of a global constant. -/
theorem completes_of_storesTo (h : E.Declares none site .constant symbol)
    (hreaches : Reaches nativeHost E.first m) (hstores : m.StoresTo symbol.index) :
    E.Completes none site ⟨.setGlobal, [symbol.index]⟩ m := by
  obtain ⟨i, m₁, hfetches, hstores⟩ := hstores
  obtain ⟨name, value, span, -, hpiece, -⟩ := h.defines
  obtain ⟨frame, callers, pre, region, is, k, o, w, hframed, hstanding, hactive⟩ :=
    exists_active hreaches
  obtain ⟨i, hi, rfl⟩ := hstanding.fetched hframed.frames hfetches
  obtain rfl := hactive.instructions
  have htargets := hstores.targets (hactive.whole.proper hi)
  obtain ⟨hstorage, hindex⟩ := h.symbol_eq
  obtain ⟨rfl, hstop, hvalue⟩ := hactive.whole.store_of_constant E.compiles hi htargets h.occurs
    hpiece (hstorage.symm.trans h.storage_eq) hindex.symm (.inr rfl)
  rw [hvalue] at hfetches
  refine ⟨frame, callers, m₁, hframed.frames, hactive.plays, hfetches, ?_⟩
  have hwidth := offsetAt_succ hi
  rw [hvalue] at hwidth
  rw [hstop, hwidth, hstanding.ip]
  rfl

/-- After the declaration nothing is stored in the slot of a global constant. -/
theorem not_storesTo_again (h : E.Declares none site .constant symbol)
    (hreaches : Reaches nativeHost E.first m) (hstores : m.StoresTo symbol.index)
    (hturn : turn nativeHost m = .next m') (hlater : Reaches nativeHost m' m'') :
    ¬ m''.StoresTo symbol.index := by
  intro hstores'
  have hreaches' := hreaches.tail hturn
  obtain ⟨f, outer, m₁, hframes, hplays, hfetches, hstop⟩ :=
    h.completes_of_storesTo hreaches hstores
  obtain ⟨f', outer', -, hframes', hplays', -, hstop'⟩ :=
    h.completes_of_storesTo (hreaches'.trans hlater) hstores'
  obtain rfl := callers_of_main hreaches hframes hplays
  obtain rfl := callers_of_main (hreaches'.trans hlater) hframes' hplays'
  obtain ⟨inner, ip, hlt, hsplit⟩ := frames_of_store hreaches hframes hfetches
    ⟨rfl, .inl ⟨rfl, .inl rfl⟩⟩ hturn (reachesAbove_zero hreaches' hlater)
  rw [hframes'] at hsplit
  cases inner with
  | nil =>
    obtain ⟨rfl, -⟩ := List.cons.inj hsplit
    -- both stores end the same declaration, but the second one is further down in the code
    simp only at hstop hstop'
    omega
  | cons g rest => simp at hsplit

/-- After the declaration a global constant keeps its value. -/
theorem globals_kept (h : E.Declares none site .constant symbol)
    (hreaches : Reaches nativeHost E.first m) (hstores : m.StoresTo symbol.index)
    (hturn : turn nativeHost m = .next m') (hlater : Reaches nativeHost m' m'') :
    m''.globals[symbol.index]?.join = m'.globals[symbol.index]?.join := by
  have hunstored : ReachesUnstored nativeHost symbol.index m' m'' := by
    induction hlater with
    | refl => exact .refl
    | tail hlater hturn' ih =>
      exact ih.tail ⟨hturn', h.not_storesTo_again hreaches hstores hturn hlater⟩
  exact join_globals_of_reaches hunstored

/-- Only the last instruction of its declaration stores in the slot of a local constant, in the call
whose slot it is. -/
theorem completes_of_setsLocal {j : Nat} (h : E.Declares (some j) site .constant symbol)
    (hreaches : Reaches nativeHost E.first m) (hframes : m.frames = inner ++ f :: outer)
    (hplays : E.Plays (some j) f) (hsets : m.SetsLocal (f.base + symbol.index)) :
    inner = [] ∧ E.Completes (some j) site ⟨.setLocal, [symbol.index]⟩ m := by
  obtain ⟨name, value, span, -, hpiece, -⟩ := h.defines
  have hmem : f ∈ m.frames := by simp [hframes]
  obtain ⟨o, -, hplays', hcode, -⟩ := exists_plays hreaches hmem
  obtain rfl := hplays'.unique hplays
  obtain ⟨rfl, o, w, k, i, m₁, hwhole, hplays', -, hip, hi, hfetches, htargets⟩ :=
    exists_of_setsLocal hreaches hframes (h.lt_locals hcode) hsets
  obtain rfl := hplays'.unique hplays
  obtain ⟨hstorage, hindex⟩ := h.symbol_eq
  obtain ⟨-, hstop, hvalue⟩ := hwhole.store_of_constant E.compiles hi htargets h.occurs hpiece
    (hstorage.symm.trans h.storage_eq) hindex.symm (.inl rfl)
  rw [hvalue] at hfetches
  refine ⟨rfl, f, outer, m₁, hframes, hplays, hfetches, ?_⟩
  have hwidth := offsetAt_succ hi
  rw [hvalue] at hwidth
  rw [hstop, hwidth, hip]
  rfl

/-- After the declaration nothing is stored in the slot of a local constant, while the call is
active. -/
theorem not_setsLocal_again {j : Nat} (h : E.Declares (some j) site .constant symbol)
    (hreaches : Reaches nativeHost E.first m) (hframes : m.frames = f :: outer)
    (hplays : E.Plays (some j) f) (hsets : m.SetsLocal (f.base + symbol.index))
    (hturn : turn nativeHost m = .next m')
    (habove : ReachesAbove nativeHost outer.length m' m'') :
    ¬ m''.SetsLocal (f.base + symbol.index) := by
  intro hsets'
  obtain ⟨-, f₁, _, m₁, hframes₁, -, hfetches, hstop⟩ :=
    h.completes_of_setsLocal hreaches (show m.frames = [] ++ f :: outer from hframes) hplays hsets
  rw [hframes] at hframes₁
  obtain ⟨rfl, rfl⟩ := List.cons.inj hframes₁
  obtain ⟨inner, ip, hlt, hframes'⟩ := frames_of_store hreaches hframes hfetches
    ⟨rfl, .inr ⟨rfl, .inl rfl⟩⟩ hturn habove
  obtain ⟨rfl, f₂, _, _, hframes₂, -, -, hstop'⟩ := h.completes_of_setsLocal (f := { f with ip })
    ((hreaches.tail hturn).trans (ReachesAbove.reaches habove)) hframes' hplays hsets'
  rw [hframes'] at hframes₂
  obtain ⟨rfl, rfl⟩ := List.cons.inj hframes₂
  simp only at hstop hstop'
  omega

/-- After the declaration a local constant keeps its value, while the call is active. -/
theorem stack_kept {j : Nat} (h : E.Declares (some j) site .constant symbol)
    (hreaches : Reaches nativeHost E.first m) (hframes : m.frames = f :: outer)
    (hplays : E.Plays (some j) f) (hsets : m.SetsLocal (f.base + symbol.index))
    (hturn : turn nativeHost m = .next m')
    (habove : ReachesAbove nativeHost outer.length m' m'') :
    m''.stack[f.base + symbol.index]? = m'.stack[f.base + symbol.index]? := by
  have hmem : f ∈ m.frames := by simp [hframes]
  obtain ⟨o, -, hplays', hcode, -⟩ := exists_plays hreaches hmem
  obtain rfl := hplays'.unique hplays
  obtain ⟨-, f₁, _, m₁, hframes₁, -, hfetches, -⟩ :=
    h.completes_of_setsLocal hreaches (show m.frames = [] ++ f :: outer from hframes) hplays hsets
  rw [hframes] at hframes₁
  obtain ⟨rfl, rfl⟩ := List.cons.inj hframes₁
  obtain ⟨inner, ip, -, hframes'⟩ := frames_of_store hreaches hframes hfetches
    ⟨rfl, .inr ⟨rfl, .inl rfl⟩⟩ hturn .refl
  have hnever : ∀ {m₁}, ReachesAbove nativeHost outer.length m' m₁ →
      ¬ m₁.SetsLocal (f.base + symbol.index) := by
    intro m₁ habove
    exact h.not_setsLocal_again hreaches hframes hplays hsets hturn habove
  exact getElem?_stack_of_above (f := { f with ip }) (hreaches.tail hturn) hframes'
    (h.lt_locals hcode) hnever habove

/-- Every declaration of the tree is compiled. -/
theorem exists_of_tree (E : Execution) {name : String} {value : Expr} {span : Span}
    (h : Relation.ReflTransGen Piece.Child (.program E.ast.statements)
      (.stmt (.declare mutability name value span))) :
    ∃ o site symbol, E.Declares o site mutability symbol ∧
      site.piece = .stmt (.declare mutability name value span) := by
  obtain ⟨o, site, hoccurs, hpiece⟩ := exists_occurs E.compiles h
  obtain ⟨symbol, v, hdeclare, -⟩ := site.declare_ok hpiece
  obtain ⟨symbol', st, hdefine, -⟩ := bind_ok.mp hdeclare
  exact ⟨o, site, symbol', ⟨hoccurs, name, value, span, st, hpiece, hdefine⟩, hpiece⟩

end Declares

/-- Nothing is stored in the slot of a parameter. -/
theorem not_setsLocal_param (hreaches : Reaches nativeHost E.first m)
    (hframes : m.frames = inner ++ f :: outer) (hn : n < f.closure.code.params) :
    ¬ m.SetsLocal (f.base + n) := by
  intro hsets
  have hmem : f ∈ m.frames := by simp [hframes]
  obtain ⟨-, is, -, -, hlists⟩ := exists_plays hreaches hmem
  have hlocals : n < f.closure.code.locals := Nat.lt_of_lt_of_le hn hlists.params
  obtain ⟨-, o, w, k, i, m₁, hwhole, -, hcode, -, hi, -, htargets⟩ :=
    exists_of_setsLocal hreaches hframes hlocals hsets
  exact hwhole.not_targets_param E.compiles hcode hn hi htargets

/-- A parameter keeps its value while the call is active. -/
theorem param_kept (hreaches : Reaches nativeHost E.first m)
    (hframes : m.frames = inner ++ f :: outer) (hn : n < f.closure.code.params)
    (habove : ReachesAbove nativeHost outer.length m m') :
    m'.stack[f.base + n]? = m.stack[f.base + n]? := by
  have hmem : f ∈ m.frames := by simp [hframes]
  obtain ⟨-, is, -, -, hlists⟩ := exists_plays hreaches hmem
  have hlocals : n < f.closure.code.locals := Nat.lt_of_lt_of_le hn hlists.params
  refine getElem?_stack_of_above hreaches hframes hlocals (fun {m₁} habove => ?_) habove
  obtain ⟨inner', ip, -, hframes'⟩ := frames_of_above hreaches hframes habove
  exact not_setsLocal_param (f := { f with ip }) (hreaches.trans (ReachesAbove.reaches habove))
    hframes' hn

/-- Constants are stored once, and parameters never. Every declaration of a constant in the tree is
compiled, and it gives the constant a slot. If a machine stores in the slot of a global constant, it
completes the declaration, and from then on the run leaves the slot as it is. If it stores in the slot
that a constant has in an active call, it runs that call and completes the declaration, and the slot
stays as it is while the call is active. The slots of parameters stay as they are as long as their
call is active. -/
theorem constants_stored_once (hreaches : Reaches nativeHost E.first m) :
    (∀ {name value span}, Relation.ReflTransGen Piece.Child (.program E.ast.statements)
      (.stmt (.declare .constant name value span)) → ∃ o site symbol,
        E.Declares o site .constant symbol ∧
        site.piece = .stmt (.declare .constant name value span)) ∧
    (∀ {site symbol}, E.Declares none site .constant symbol →
      symbol.storage = .globalSlot ∧ (m.StoresTo symbol.index →
        E.Completes none site ⟨.setGlobal, [symbol.index]⟩ m ∧
        ∀ {m' m''}, turn nativeHost m = .next m' → Reaches nativeHost m' m'' →
          ¬ m''.StoresTo symbol.index ∧
          m''.globals[symbol.index]?.join = m'.globals[symbol.index]?.join)) ∧
    ∀ {inner f outer}, m.frames = inner ++ f :: outer →
      (∀ {j site symbol}, E.Plays (some j) f → E.Declares (some j) site .constant symbol →
        symbol.storage = .localSlot ∧ (m.SetsLocal (f.base + symbol.index) →
          inner = [] ∧ E.Completes (some j) site ⟨.setLocal, [symbol.index]⟩ m ∧
          ∀ {m' m''}, turn nativeHost m = .next m' →
            ReachesAbove nativeHost outer.length m' m'' →
            ¬ m''.SetsLocal (f.base + symbol.index) ∧
            m''.stack[f.base + symbol.index]? = m'.stack[f.base + symbol.index]?)) ∧
      ∀ n < f.closure.code.params, ¬ m.SetsLocal (f.base + n) ∧
        ∀ {m'}, ReachesAbove nativeHost outer.length m m' →
          m'.stack[f.base + n]? = m.stack[f.base + n]? := by
  refine ⟨fun htree => Declares.exists_of_tree E htree,
    fun {site symbol} hdeclares => ⟨hdeclares.storage_eq, fun hstores => ?_⟩,
    fun {inner f outer} hframes => ⟨fun {j site symbol} hplays hdeclares =>
      ⟨hdeclares.storage_eq, fun hsets => ?_⟩, fun n hn => ?_⟩⟩
  · refine ⟨hdeclares.completes_of_storesTo hreaches hstores, fun hturn hlater => ⟨?_, ?_⟩⟩
    · exact hdeclares.not_storesTo_again hreaches hstores hturn hlater
    · exact hdeclares.globals_kept hreaches hstores hturn hlater
  · obtain ⟨rfl, hcompletes⟩ := hdeclares.completes_of_setsLocal hreaches hframes hplays hsets
    refine ⟨rfl, hcompletes, fun hturn habove => ⟨?_, ?_⟩⟩
    · exact hdeclares.not_setsLocal_again hreaches hframes hplays hsets hturn habove
    · exact hdeclares.stack_kept hreaches hframes hplays hsets hturn habove
  · exact ⟨not_setsLocal_param hreaches hframes hn, fun habove =>
      param_kept hreaches hframes hn habove⟩

end Execution

/-- `let f = fn(a) { let b = a; if (b) { f(false) } else { b } }; f(true)`: the constant `b` is
stored in two calls that are active at the same time. -/
def repeatedCall : Ast :=
  let choice : Expr := .conditional (.identifier "b" {})
    (.mk [.expression (.call (.identifier "f" {}) [.boolean false {}] {}) {}] {})
    (some (.mk [.expression (.identifier "b" {}) {}] {})) {}
  let f : Expr := .function (some "f") [⟨"a", {}⟩]
    (.mk [.declare .constant "b" (.identifier "a" {}) {}, .expression choice {}] {}) {}
  ⟨[.declare .constant "f" f {},
    .expression (.call (.identifier "f" {}) [.boolean true {}] {}) {}]⟩

/-- The constant `b` has the slot behind the parameter. -/
theorem repeatedCall_declares (E : Execution) (hast : E.ast = repeatedCall) :
    ∃ j site symbol, E.Declares (some j) site .constant symbol ∧ symbol.index = 1 := by
  obtain ⟨w, hwhole, -⟩ := exists_program .init E.compiles
  have hw := hwhole.occurs
  cases hwhole with | program hpiece hcode hstate =>
  rw [hast] at hpiece
  -- the declaration of `f`, the function, its body and the declaration of `b`
  obtain ⟨s₁, h₁, hs₁, -⟩ := hw.exists_first (by rw [hpiece]; rfl)
  obtain ⟨s₂, h₂, hs₂, -⟩ := h₁.exists_first (by rw [hs₁]; rfl)
  obtain ⟨j, body, h₃, hs₃, -, henter, -⟩ := h₂.exists_body hs₂
  obtain ⟨s₄, h₄, hs₄, -, hprepare⟩ := h₃.exists_first (by rw [hs₃]; rfl)
  obtain ⟨symbol, v, hdeclare, -⟩ := s₄.declare_ok hs₄
  obtain ⟨symbol', st, hdefine, -⟩ := bind_ok.mp hdeclare
  have hdeclares : E.Declares (some j) s₄ .constant symbol' :=
    ⟨h₄, _, _, _, st, hs₄, hdefine⟩
  refine ⟨j, s₄, symbol', hdeclares, ?_⟩
  -- it gets the slot behind the parameter
  obtain ⟨t, hentered, hstate⟩ := enterFunction_ok henter (h₂.valid CompilerState.valid_init).sound
  rw [hs₃] at hprepare
  obtain ⟨-, hbegin⟩ := pure_ok.mp hprepare
  rw [hdeclares.symbol_eq.2, ← hbegin, ← hstate]
  exact hentered.definitions

theorem run_repeatedCall : ((compileFrom {} repeatedCall).toOption.bind fun r =>
    (after nativeHost 13 (start nativeHost {} r.1 #[] {} 0)).bind fun m =>
      (after nativeHost 1 m).map fun _ => (r.1.constants.size, m.next?, m.frames.length)) =
    some (1, some ⟨.setLocal, [1]⟩, 3) := by
  decide +kernel

/-- The inner of two calls stores its own constant, while the outer one has stored one already. -/
theorem repeatedCall_stored_once : ∃ (E : Execution) (m m' : Machine Console Value)
    (f : Frame Value) (outer : List (Frame Value)) (j : Nat) (site : Site) (symbol : Symbol),
    E.ast = repeatedCall ∧ Reaches nativeHost E.first m ∧ m.frames = f :: outer ∧
    outer.length = 2 ∧ E.Plays (some j) f ∧
    E.Declares (some j) site .constant symbol ∧ symbol.index = 1 ∧ m.SetsLocal (f.base + 1) ∧
    turn nativeHost m = .next m' ∧ E.Completes (some j) site ⟨.setLocal, [1]⟩ m ∧
    ∀ m'', ReachesAbove nativeHost 2 m' m'' → ¬ m''.SetsLocal (f.base + 1) := by
  obtain ⟨⟨p, last⟩, hcompile, h⟩ := Option.bind_eq_some_iff.mp run_repeatedCall
  obtain ⟨m, hm, h⟩ := Option.bind_eq_some_iff.mp h
  obtain ⟨m', hm', h⟩ := Option.map_eq_some_iff.mp h
  simp only [Prod.mk.injEq] at h
  obtain ⟨hsize, hnext, hdepth⟩ := h
  let E : Execution := ⟨repeatedCall, p, last, eq_ok_of_toOption hcompile, {}, 0⟩
  have hreaches : Reaches nativeHost E.first m := reaches_of_after hm
  have hturn : turn nativeHost m = .next m' := turn_of_after_one hm'
  obtain ⟨f, outer, hframes⟩ := List.exists_cons_of_length_eq_add_one hdepth
  have houter : outer.length = 2 := by simpa [hframes] using hdepth
  obtain ⟨m₁, hfetches⟩ := fetches_of_next? hnext
  have hsets : m.SetsLocal (f.base + 1) := ⟨_, 1, m₁, f, outer, hfetches, .inl rfl, hframes, rfl⟩
  obtain ⟨j, site, symbol, hdeclares, hindex⟩ := repeatedCall_declares E rfl
  -- there is one function
  have hzero : ∀ {j code}, p.codeOf? (some j) = some code → j = 0 := by
    intro j code hcode
    have hlt := (Array.getElem?_eq_some_iff.mp (Program.codeOf?_some.mp hcode)).1
    omega
  obtain ⟨w, hwhole, -⟩ := hdeclares.occurs.exists_whole
  obtain ⟨_, hcode, -⟩ := hwhole.lists E.compiles
  obtain rfl := hzero hcode
  have hmem : f ∈ m.frames := by simp [hframes]
  obtain ⟨o, -, hplays, hcode', -⟩ := Execution.exists_plays hreaches hmem
  cases o with
  | none =>
    rw [Execution.callers_of_main hreaches hframes hplays] at houter
    cases houter
  | some j' =>
    obtain rfl := hzero hcode'
    obtain ⟨-, -, hlocals⟩ := Execution.constants_stored_once hreaches
    have hsplit : m.frames = [] ++ f :: outer := hframes
    obtain ⟨-, honce⟩ := (hlocals hsplit).1 hplays hdeclares
    rw [hindex, houter] at honce
    obtain ⟨-, hcompletes, hnever⟩ := honce hsets
    exact ⟨E, m, m', f, outer, 0, site, symbol, rfl, hreaches, hframes, houter, hplays, hdeclares,
      hindex, hsets, hturn, hcompletes, fun m'' habove => (hnever hturn habove).1⟩

end Bytescript
