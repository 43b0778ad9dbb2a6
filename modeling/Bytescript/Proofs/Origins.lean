/-
Where the values on the stack come from.

An instruction pushes what is found under a name, or a new closure: its `Origin`. `Held` says that
the value of an origin is still on the stack further down the code, whichever way the run came
there, and that it is still what is found under the name. `Records` is the number of parameters that
the compiler has recorded for an origin.

Main statements:

* `Whole.held_of_store` — what is stored in a slot with a recorded number is a new closure;
* `Whole.held_of_closure` — what a closure captures under a name with a recorded number was found
  under a name with the same number;
* `Whole.held_of_call` — what a call by a name with a recorded number calls is what is found under
  the name.
-/
import Bytescript.Proofs.Arities

namespace Bytescript

/-- Where a value on the stack comes from: it was found under a name, or it is a new closure. -/
inductive Origin where
  | name (storage : Storage) (n : Nat)
  | made (f : FunctionCode)

/-- The instruction stores another value under the name. -/
def Instruction.Replaces (i : Instruction) : Origin → Prop
  | .name storage n => i.Targets storage n
  | .made _ => False

namespace Compile

/-! ### Values that stay on the stack -/

/-- The value that the instruction at the index `x` leaves at the height `h` is still there before
the instruction at the index `k`, and it is still what is found under its name: the instructions
between do not reach it and do not replace it, and no jump leads there from before. -/
structure Stays (is : List (Located Instruction)) (x k : Nat) (h : Int) (origin : Origin) :
    Prop where
  lt : x < k
  kept : ∀ {y : Nat} {j : Located Instruction}, x < y → y < k → is[y]? = some j →
    h + 1 + j.value.pops ≤ rise (is.take y)
  entered : ∀ {y y' : Nat} {j : Located Instruction}, y ≤ x → is[y]? = some j →
    j.value.opcode.isJump = true → j.value.operands = [offsetAt is y'] → y' ≤ x ∨ k < y'
  current : ∀ {y : Nat} {j : Located Instruction}, x < y → y < k → is[y]? = some j →
    ¬ j.value.Replaces origin

/-- Whichever way a run comes before the instruction at the index `k`, there is a value of the
origin at the height `h`, pushed by an instruction of `carries`. -/
def Held (carries : Instruction → Origin → Prop) (is : List (Located Instruction)) (k : Nat)
    (h : Int) (origin : Origin) : Prop :=
  ∃ x i, is[x]? = some i ∧ carries i.value origin ∧ h = rise (is.take x) - i.value.pops ∧
    Stays is x k h origin

section

variable {carries : Instruction → Origin → Prop} {is : List (Located Instruction)} {k k' : Nat}
  {h : Int} {origin : Origin} {i : Located Instruction}

theorem Stays.mono {x : Nat} (hstays : Stays is x k h origin) (hx : x < k') (hk : k' ≤ k) :
    Stays is x k' h origin where
  lt := hx
  kept hlt hlt' hj := hstays.kept hlt (Nat.lt_of_lt_of_le hlt' hk) hj
  entered hle hj hjump hoperands := by
    rcases hstays.entered hle hj hjump hoperands with hbefore | hafter
    · exact .inl hbefore
    · exact .inr (by omega)
  current hlt hlt' hj := hstays.current hlt (Nat.lt_of_lt_of_le hlt' hk) hj

/-- What is held behind an instruction was pushed by it, or it was held before and stays. -/
theorem Held.of_succ (hheld : Held carries is (k + 1) h origin) (hi : is[k]? = some i) :
    (carries i.value origin ∧ h = rise (is.take k) - i.value.pops) ∨
      (Held carries is k h origin ∧ h + 1 + i.value.pops ≤ rise (is.take k) ∧
        ¬ i.value.Replaces origin) := by
  obtain ⟨x, j, hj, hcarries, hh, hstays⟩ := hheld
  by_cases hx : x = k
  · subst hx
    rw [hi] at hj
    cases hj
    exact .inl ⟨hcarries, hh⟩
  · have hlt : x < k := by
      have := hstays.lt
      omega
    exact .inr ⟨⟨x, j, hj, hcarries, hh, hstays.mono hlt (Nat.le_succ k)⟩,
      hstays.kept hlt (Nat.lt_succ_self k) hi, hstays.current hlt (Nat.lt_succ_self k) hi⟩

/-- What is held stands above the locals. -/
theorem Held.nonneg (hheld : Held carries is k h origin) (hbalanced : Balanced is) : 0 ≤ h := by
  obtain ⟨x, j, hj, -, hh, -⟩ := hheld
  have hpops := (hbalanced hj).pops
  omega

/-- What is held at the target of a jump was held before the jump and stays. -/
theorem Held.of_jump (hheld : Held carries is k' h origin) (hi : is[k]? = some i)
    (hjump : i.value.opcode.isJump = true) (hoperands : i.value.operands = [offsetAt is k'])
    (hlt : k < k') : Held carries is k h origin ∧ h + 1 + i.value.pops ≤ rise (is.take k) := by
  obtain ⟨x, j, hj, hcarries, hh, hstays⟩ := hheld
  have hx : x < k := by
    by_contra hle
    have := hstays.lt
    rcases hstays.entered (Nat.not_lt.mp hle) hi hjump hoperands with hbefore | hafter
    · omega
    · omega
  exact ⟨⟨x, j, hj, hcarries, hh, hstays.mono hx (Nat.le_of_lt hlt)⟩, hstays.kept hx hlt hi⟩

/-- An index between an instruction and the end of what follows it. -/
theorem getElem?_between {front after back : List (Located Instruction)} {y : Nat}
    {j : Located Instruction} (hlt : front.length < y) (hlt' : y < (front ++ i :: after).length)
    (hj : (front ++ i :: (after ++ back))[y]? = some j) :
    ∃ y', y = front.length + 1 + y' ∧ y' < after.length ∧ after[y']? = some j := by
  obtain ⟨y, rfl⟩ : ∃ y', y = front.length + 1 + y' := ⟨y - (front.length + 1), by omega⟩
  have hy : y < after.length := by
    simp only [List.length_append, List.length_cons] at hlt'
    omega
  refine ⟨y, rfl, hy, ?_⟩
  rw [List.getElem?_append_right (by omega)] at hj
  have hindex : front.length + 1 + y - front.length = y + 1 := by omega
  rwa [hindex, List.getElem?_cons_succ, List.getElem?_append_left hy] at hj

/-- No jump leads into the code of a site from before one of its instructions, if the site itself
has not jumped until then. -/
theorem not_jumped_into {pre before behind post : List (Located Instruction)} {s : Site}
    (hpre : (encodeAll pre).length = s.code.stop)
    (hcode : s.code.Extends (before ++ behind) s.codeAfter)
    (houtside : ∀ j ∈ pre, j.value.opcode.isJump = true → ∀ t ∈ j.value.operands,
      t ≤ s.code.stop ∨ s.codeAfter.stop ≤ t)
    (hjumps : ∀ j ∈ before, j.value.opcode.isJump = false) {y y' : Nat}
    {j : Located Instruction} (hy : y < (pre ++ before).length)
    (hj : (pre ++ (before ++ behind) ++ post)[y]? = some j) (hjump : j.value.opcode.isJump = true)
    (hoperands : j.value.operands = [offsetAt (pre ++ (before ++ behind) ++ post) y'])
    (hstart : pre.length < y') (hstop : y' < (pre ++ (before ++ behind)).length) : False := by
  by_cases hfront : y < pre.length
  · -- jumps from before the site lead past it, or not into it
    have hmem : j ∈ pre := by
      rw [List.append_assoc, List.getElem?_append_left hfront] at hj
      exact List.mem_of_getElem? hj
    generalize hwhole : pre ++ (before ++ behind) ++ post = whole at hoperands
    have hlength : (pre ++ (before ++ behind)).length ≤ whole.length := by
      simp only [← hwhole, List.length_append]
      omega
    have hfirst : offsetAt whole pre.length = s.code.stop := by
      rw [offsetAt, ← hwhole, List.append_assoc, List.take_left, hpre]
    have hlast : offsetAt whole (pre ++ (before ++ behind)).length = s.codeAfter.stop := by
      rw [offsetAt, ← hwhole, List.take_left, encodeAll_append, List.length_append, hpre,
        hcode.stop]
    have hlow := offsetAt_lt hstart (by omega : y' ≤ whole.length)
    have hhigh := offsetAt_lt hstop hlength
    rcases houtside j hmem hjump (offsetAt whole y') (by simp [hoperands]) with hle | hge
    · omega
    · omega
  · -- the site's own instructions do not jump
    have hmem : j ∈ before := by
      rw [List.append_assoc, List.getElem?_append_right (Nat.not_lt.mp hfront), List.append_assoc,
        List.getElem?_append_left] at hj
      · exact List.mem_of_getElem? hj
      · rw [List.length_append] at hy
        omega
    rw [hjumps j hmem] at hjump
    cases hjump

/-- Where the code of a site stands, the value that one of its instructions pushes stays on the
stack while the following ones only use what was pushed after it. -/
theorem Site.Sits.stays {whole before after rest : List (Located Instruction)} {s : Site}
    (hsits : s.Sits whole)
    (hcode : s.code.Extends (before ++ i :: after ++ rest) s.codeAfter) (hrest : rest ≠ [])
    (hjumps : ∀ j ∈ before ++ [i], j.value.opcode.isJump = false) (hpushes : i.value.pushes = 1)
    (hafter : ∀ {y j}, after[y]? = some j →
      (j.value.pops : Int) ≤ rise (after.take y) ∧ ¬ j.value.Replaces origin) :
    ∃ pre post, whole = pre ++ (before ++ i :: after ++ rest) ++ post ∧
      offsetAt whole (pre ++ (before ++ i :: after ++ rest)).length = s.codeAfter.stop ∧
      Stays whole (pre ++ before).length (pre ++ before ++ i :: after).length
        (rise (pre ++ before) - i.value.pops) origin := by
  obtain ⟨pre, js, post, hwhole, hjs, hpre, houtside⟩ := hsits
  obtain rfl := hjs.unique hcode
  have hstop : offsetAt whole (pre ++ (before ++ i :: after ++ rest)).length =
      s.codeAfter.stop := by
    rw [offsetAt, hwhole, List.take_left, encodeAll_append, List.length_append, hpre, hcode.stop]
  refine ⟨pre, post, hwhole, hstop, ?_⟩
  have hsplit : whole = pre ++ before ++ i :: (after ++ (rest ++ post)) := by
    rw [hwhole]
    simp
  constructor
  case lt =>
    simp only [List.length_append, List.length_cons]
    omega
  case kept =>
    -- what stands between is in `after`, and the height before it counts from that of `i`
    intro y j hlt hlt' hj
    obtain ⟨y, rfl, hy, hj'⟩ := getElem?_between hlt hlt' (hsplit ▸ hj)
    have htake : whole.take ((pre ++ before).length + 1 + y) =
        pre ++ before ++ i :: after.take y := by
      rw [hsplit, Nat.add_assoc, List.take_length_add_append, Nat.add_comm, List.take_succ_cons,
        List.take_append_of_le_length (Nat.le_of_lt hy)]
    have hrise := (hafter hj').1
    rw [htake, rise_append _ (i :: _), rise, hpushes]
    omega
  case entered =>
    intro y y' j hle hj hjump hoperands
    by_contra hinside
    rw [not_or, Nat.not_le, Nat.not_lt] at hinside
    have hown : before ++ i :: after ++ rest = before ++ [i] ++ (after ++ rest) := by simp
    have hpos := List.length_pos_iff.mpr hrest
    rw [hown] at hwhole hcode
    simp only [List.length_append, List.length_cons] at hle hinside
    refine not_jumped_into hpre hcode houtside hjumps ?_ (hwhole ▸ hj) hjump
      (hwhole ▸ hoperands) ?_ ?_
    · simp only [List.length_append, List.length_singleton]
      omega
    · omega
    · simp only [List.length_append, List.length_singleton]
      omega
  case current =>
    intro y j hlt hlt' hj
    obtain ⟨y, rfl, -, hj'⟩ := getElem?_between hlt hlt' (hsplit ▸ hj)
    exact (hafter hj').2

end

/-! ### Values whose number of parameters is known -/

/-- The instruction pushes a value of the origin. -/
inductive Pushes (p : Program) : Instruction → Origin → Prop where
  | global (n : Nat) : Pushes p ⟨.getGlobal, [n]⟩ (.name .globalSlot n)
  | slot (n : Nat) : Pushes p ⟨.getLocal, [n]⟩ (.name .localSlot n)
  | captured (n : Nat) : Pushes p ⟨.getFree, [n]⟩ (.name .captured n)
  | builtin (n : Nat) : Pushes p ⟨.getBuiltin, [n]⟩ (.name .builtin n)
  | self (n : Nat) : Pushes p ⟨.currentClosure, []⟩ (.name .self n)
  | closure {j count : Nat} {f : FunctionCode} : p.constants[j]? = some (.function f) →
      Pushes p ⟨.closure, [j, count]⟩ (.made f)

/-- In the code of the whole site `w`, this number of parameters is recorded for values of the
origin. The tables are those that there are in the end. -/
inductive Records (p : Program) (last : CompilerState) (o : Option Nat) (w : Site) :
    Origin → Nat → Prop where
  | global {n a : Nat} : last.scopes.root.Knows .globalSlot n a →
      Records p last o w (.name .globalSlot n) a
  | slot {n a : Nat} : w.stateAfter.scopes.current.Knows .localSlot n a →
      Records p last o w (.name .localSlot n) a
  | captured {n a : Nat} : w.stateAfter.scopes.current.Knows .captured n a →
      Records p last o w (.name .captured n) a
  | self {n : Nat} {f : FunctionCode} : p.codeOf? o = some f →
      Records p last o w (.name .self n) f.params
  | made {f : FunctionCode} : Records p last o w (.made f) f.params

/-- The instruction pushes a value for which a number of parameters is recorded. -/
def Carries (p : Program) (last : CompilerState) (o : Option Nat) (w : Site) (i : Instruction)
    (origin : Origin) : Prop :=
  Pushes p i origin ∧ ∃ a, Records p last o w origin a

theorem Records.knows {p : Program} {last : CompilerState} {o : Option Nat} {w : Site}
    {storage : Storage} {n a : Nat} (h : Records p last o w (.name storage n) a)
    (hslot : storage = .globalSlot ∨ storage = .localSlot) :
    (w.table last.scopes.root storage).Knows storage n a := by
  cases h with
  | global hknows => exact hknows
  | slot hknows => exact hknows
  | captured | self => simp at hslot

theorem Pushes.pushes_eq {p : Program} {i : Instruction} {origin : Origin} (h : Pushes p i origin) :
    i.pushes = 1 := by
  cases h <;> rfl

theorem pushes_load {p : Program} (s : Symbol) :
    Pushes p (loadInstruction s) (.name s.storage s.index) := by
  rw [loadInstruction]
  cases s.storage with
  | globalSlot => exact .global _
  | localSlot => exact .slot _
  | captured => exact .captured _
  | builtin => exact .builtin _
  | self => exact .self _

section

variable {ast : Ast} {p : Program} {last : CompilerState} {o : Option Nat} {w : Site}

/-- The number that is recorded for a name is still recorded for it in the end. -/
theorem Whole.records_load (hcompile : compileFrom {} ast = .ok (p, last)) (h : Whole {} ast o w)
    {st : CompilerState} (hst : st.Valid) (hbegin : Later w.state st) (hend : Later st w.stateAfter)
    {name : String} {symbol : Symbol} {a : Nat}
    (hfound : (symbol.IsVariable ∧ st.scopes.current.symbols[name]? = some symbol) ∨
      ((symbol.storage = .globalSlot ∨ symbol.storage = .builtin) ∧
        st.scopes.root.symbols[name]? = some symbol))
    (harity : symbol.arity? = some a) :
    Records p last o w (.name symbol.storage symbol.index) a := by
  rcases hfound with ⟨hlocal | hcaptured | hself, hentry⟩ | ⟨hglobal | hbuiltin, hentry⟩
  · have hentry' := hend.entry hentry (by rw [hlocal]; decide)
    rw [hlocal]
    exact .slot ⟨name, symbol, hentry', hlocal, rfl, harity⟩
  · have hentry' := hend.entry hentry (by rw [hcaptured]; decide)
    rw [hcaptured]
    exact .captured ⟨name, symbol, hentry', hcaptured, rfl, harity⟩
  · obtain ⟨f, hf, hparams⟩ := h.arity_of_self hcompile hbegin hentry hself
    obtain rfl : f.params = a := by simpa [harity] using hparams.symm
    rw [hself]
    exact .self hf
  · have hentry' := (hend.toAfter.trans (h.occurs.after .init hcompile)).entry hst.sound hentry
    rw [hglobal]
    exact .global ⟨name, symbol, hentry', hglobal, rfl, harity⟩
  · -- nothing is recorded for built-in functions
    have hentry' := (hend.toAfter.trans (h.occurs.after .init hcompile)).entry hst.sound hentry
    rw [(recorded_root hcompile).builtin hentry' hbuiltin] at harity
    cases harity

/-! ### What is known at stores, closures and calls -/

/-- Before the last instruction of a site, the value that an instruction of it pushed is held, if
those between only use what was pushed after it. -/
theorem Whole.held (h : Whole {} ast o w) {s : Site} (hs : Within w s)
    {before after : List (Located Instruction)} {i final : Located Instruction} {k : Nat}
    {origin : Origin}
    (hcode : s.code.Extends (before ++ i :: after ++ [final]) s.codeAfter)
    (hjumps : ∀ j ∈ before ++ [i], j.value.opcode.isJump = false) (hpushes : i.value.pushes = 1)
    (hafter : ∀ {y j}, after[y]? = some j →
      (j.value.pops : Int) ≤ rise (after.take y) ∧ ¬ j.value.Replaces origin)
    (hcarries : Carries p last o w i.value origin) (hk : k < w.instructions.length)
    (hstop : s.codeAfter.stop = offsetAt w.instructions (k + 1)) :
    w.instructions[k]? = some final ∧ Held (Carries p last o w) w.instructions k
      (rise (w.instructions.take k) - (1 + rise after)) origin := by
  have hvalid := h.occurs.valid CompilerState.valid_init
  have hsits := Within.sits hs hvalid (h.sits CompilerState.valid_init)
  obtain ⟨pre, post, hwhole, hstop', hstays⟩ := hsits.stays hcode (by simp) hjumps hpushes hafter
  have hsplit : w.instructions = pre ++ before ++ i :: after ++ final :: post := by
    rw [hwhole]
    simp
  -- the last instruction of the site is the one before the offset at which the site ends
  obtain rfl : k = (pre ++ before ++ i :: after).length := by
    have hindex := offsetAt_injective hk (by simp [hsplit]) (hstop.symm.trans hstop'.symm)
    simp only [List.length_append, List.length_cons, List.length_nil] at hindex ⊢
    omega
  have htake : w.instructions.take (pre ++ before ++ i :: after).length =
      pre ++ before ++ i :: after := by rw [hsplit, List.take_left]
  have hheight : rise (pre ++ before) - i.value.pops =
      rise (w.instructions.take (pre ++ before ++ i :: after).length) - (1 + rise after) := by
    rw [htake, rise_append _ (i :: after), rise, hpushes]
    omega
  rw [← hheight]
  refine ⟨?_, (pre ++ before).length, i, ?_, hcarries, ?_, hstays⟩
  · rw [hsplit, List.getElem?_append_right (Nat.le_refl _), Nat.sub_self]
    rfl
  · have hown : w.instructions = pre ++ before ++ i :: (after ++ final :: post) := by
      rw [hsplit]
      simp
    rw [hown, List.getElem?_append_right (Nat.le_refl _), Nat.sub_self]
    rfl
  · have hown : w.instructions = pre ++ before ++ (i :: (after ++ final :: post)) := by
      rw [hsplit]
      simp
    rw [hown, List.take_left]

theorem not_isJump_of_mem_loads_concat {symbols : List Symbol} {span : Span}
    {i j : Located Instruction} (hi : i.value.opcode.isJump = false)
    (hj : j ∈ loads symbols span ++ [i]) : j.value.opcode.isJump = false := by
  rcases List.mem_append.mp hj with hj | hj
  · obtain ⟨s, -, rfl⟩ := List.mem_map.mp hj
    exact (loadInstruction_pushes s).1
  · rwa [List.mem_singleton.mp hj]

theorem not_replaces_of_mem_loads {symbols : List Symbol} {span : Span} {i : Located Instruction}
    (h : i ∈ loads symbols span) (origin : Origin) : ¬ i.value.Replaces origin := by
  obtain ⟨s, -, rfl⟩ := List.mem_map.mp h
  cases origin with
  | made f => exact not_false
  | name storage n =>
    intro htargets
    have hpushes : Instruction.pushes (loadInstruction s) = 1 := (loadInstruction_pushes s).2.2
    obtain ⟨-, hop⟩ : Instruction.Targets (loadInstruction s) storage n := htargets
    rcases hop with ⟨-, hop | hop⟩ | ⟨-, hop | hop⟩ <;> simp [Instruction.pushes, hop] at hpushes

theorem exists_function_of_recordedArity {mutability : Mutability} {value : Expr} {a : Nat}
    (h : recordedArity mutability value = some a) : mutability = .constant ∧
      ∃ name? params body span, value = .function name? params body span ∧ params.length = a := by
  rw [recordedArity.eq_def] at h
  split at h
  · cases h
    exact ⟨rfl, _, _, _, _, rfl, rfl⟩
  · cases h

/-- A slot with a recorded number of parameters is that of a constant, for which the number is
recorded. -/
theorem Whole.constant_of_knows (hcompile : compileFrom {} ast = .ok (p, last))
    (h : Whole {} ast o w) {storage : Storage}
    (hslot : storage = .globalSlot ∨ storage = .localSlot) {n a : Nat}
    (hknows : (w.table last.scopes.root storage).Knows storage n a) {name : String}
    {symbol : Symbol} (hentry : (w.table last.scopes.root storage).symbols[name]? = some symbol)
    (hstorage : symbol.storage = storage) (hindex : symbol.index = n) :
    symbol.arity? = some a ∧ symbol.mutability = .constant := by
  obtain ⟨name', symbol', hentry', hstorage', hindex', harity⟩ := hknows
  have hisSlot : symbol.IsSlot := by rwa [Symbol.IsSlot, hstorage]
  obtain rfl := (h.sound_table hcompile storage).slot_unique hentry hentry' hisSlot
    (by rwa [Symbol.IsSlot, hstorage']) (hindex.trans hindex'.symm)
  have hsame : some symbol = some symbol' := hentry.symm.trans hentry'
  cases hsame
  have hrecorded : (w.table last.scopes.root storage).Recorded := by
    cases storage with
    | globalSlot => exact recorded_root hcompile
    | localSlot | captured | builtin | self => exact h.recorded _ List.mem_cons_self
  exact ⟨harity, hrecorded.slot hentry hisSlot (by simp [harity])⟩

/-- What stores in a slot with a recorded number of parameters is the last instruction of a
declaration for which the number is recorded. -/
theorem Whole.declare_of_knows (hcompile : compileFrom {} ast = .ok (p, last))
    (h : Whole {} ast o w) {k n a : Nat} {i : Located Instruction} {storage : Storage}
    (hi : w.instructions[k]? = some i) (htargets : i.value.Targets storage n)
    (hknows : (w.table last.scopes.root storage).Knows storage n a) :
    ∃ s mutability name value span, Within w s ∧
      s.piece = .stmt (.declare mutability name value span) ∧
      s.codeAfter.stop = offsetAt w.instructions (k + 1) ∧
      s.state.scopes.slotStorage = storage ∧ recordedArity mutability value = some a := by
  rcases h.store_cases hcompile hi htargets with
    ⟨s, mutability, name, value, span, hs, hpiece, hstop, hslotStorage, hn, -⟩ |
    ⟨name, symbol, hentry, hstorage, hindex, hmutable⟩
  · have hdeclared := h.declared hcompile hs hpiece
    rw [hslotStorage, hn] at hdeclared
    obtain ⟨harity, -⟩ :=
      h.constant_of_knows hcompile htargets.storage_cases hknows hdeclared rfl rfl
    exact ⟨s, mutability, name, value, span, hs, hpiece, hstop, hslotStorage, harity⟩
  · -- a name with a recorded number is not assigned
    obtain ⟨-, hconstant⟩ :=
      h.constant_of_knows hcompile htargets.storage_cases hknows hentry hstorage hindex
    exact absurd hconstant hmutable

/-- Globals with a recorded number of parameters are stored by the main code. -/
theorem Whole.eq_none_of_knows (hcompile : compileFrom {} ast = .ok (p, last))
    (h : Whole {} ast o w) {k n a : Nat} {i : Located Instruction}
    (hi : w.instructions[k]? = some i) (htargets : i.value.Targets .globalSlot n)
    (hknows : last.scopes.root.Knows .globalSlot n a) : o = none := by
  obtain ⟨s, _, _, _, _, hs, -, -, hslot, -⟩ := h.declare_of_knows hcompile hi htargets hknows
  exact (h.occurs.of_within hs).eq_none_of_global hslot

/-- What is stored in a slot with a recorded number of parameters is a new closure, of a function
with as many parameters. -/
theorem Whole.held_of_store (hcompile : compileFrom {} ast = .ok (p, last)) (h : Whole {} ast o w)
    {k n a : Nat} {i : Located Instruction} {storage : Storage} (hi : w.instructions[k]? = some i)
    (htargets : i.value.Targets storage n)
    (hknows : (w.table last.scopes.root storage).Knows storage n a) :
    ∃ f, f.params = a ∧
      Held (Carries p last o w) w.instructions k (rise (w.instructions.take k) - 1) (.made f) := by
  obtain ⟨s, mutability, name, value, span, hs, hpiece, hstop, -, harity⟩ :=
    h.declare_of_knows hcompile hi htargets hknows
  obtain ⟨-, name?, params, body, span', rfl, hparams⟩ := exists_function_of_recordedArity harity
  obtain ⟨symbol, v, -, hpart, hv, hvcode, hown⟩ := s.declare_ok hpiece
  obtain ⟨j, body', hbody⟩ := Body.exists_of_function hv
  have hvoccurs := (h.occurs.of_within hs).part hpart
  obtain ⟨_, _, _, _, hv', -, hconstant⟩ := hbody.constant .init hcompile hvoccurs
  rw [hv] at hv'
  cases hv'
  obtain ⟨_, _, _, span'', -, -, -, -, -, hclosure⟩ := hbody.function
  have hcode := hclosure.trans hown
  rw [hvcode] at hcode
  refine ⟨functionCode name? params body'.codeAfter body'.stateAfter.scopes.current, hparams, ?_⟩
  have hcarries : Carries p last o w
      ⟨.closure, [j, body'.stateAfter.scopes.current.captures.toList.length]⟩ (.made _) :=
    ⟨.closure hconstant, _, .made⟩
  obtain ⟨-, hheld⟩ := h.held hs hcode (fun _ => not_isJump_of_mem_loads_concat rfl) rfl (by simp)
    hcarries (List.getElem?_eq_some_iff.mp hi).1 hstop
  rwa [rise_nil, Int.add_zero] at hheld

/-- What a function captures is a variable of the function around it. -/
theorem Body.isVariable_of_capture {j : Nat} {s body : Site} (hbody : Body j s body)
    (hwhole : Whole {} ast (some j) body) (hs : s.state.Valid) {outside : Symbol}
    (houtside : outside ∈ body.stateAfter.scopes.current.captures.toList) :
    outside.IsVariable ∧ s.stateAfter.scopes.current.symbols[outside.name]? = some outside := by
  have hvalid := hbody.valid hs
  have houter : body.stateAfter.scopes.outer ≠ [] := by
    have hglobal := hwhole.occurs.isGlobal CompilerState.valid_init rfl
    rw [(body.later hvalid).isGlobal] at hglobal
    intro hnil
    simp [Scopes.isGlobal, hnil] at hglobal
  obtain ⟨_, _, _, _, -, -, -, -, hlast, -⟩ := hbody.function
  rw [hlast]
  exact (Scopes.leave_spec (Piece.valid body.runs hvalid).sound houter).2 outside houtside

theorem loads_eq_append {captures : List Symbol} {c : Nat} {symbol : Symbol}
    (h : captures[c]? = some symbol) (span : Span) :
    loads captures span = loads (captures.take c) span ++
      ⟨loadInstruction symbol, span⟩ :: loads (captures.drop (c + 1)) span := by
  obtain ⟨hlt, hat⟩ := List.getElem?_eq_some_iff.mp h
  conv_lhs => rw [← List.take_append_drop c captures, List.drop_eq_getElem_cons hlt, hat]
  simp [loads]

/-- What a closure captures under a name with a recorded number of parameters is what was found
under the name in the code around it, for which the same number is recorded. -/
theorem Whole.held_of_closure (hcompile : compileFrom {} ast = .ok (p, last))
    (h : Whole {} ast o w) {j k count : Nat} {span : Span}
    (hi : w.instructions[k]? = some ⟨⟨.closure, [j, count]⟩, span⟩) :
    ∃ body, Whole {} ast (some j) body ∧
      ∀ {c a : Nat}, body.stateAfter.scopes.current.Knows .captured c a → c < count ∧
        ∃ outside, body.stateAfter.scopes.current.captures[c]? = some outside ∧
          Records p last o w (.name outside.storage outside.index) a ∧
          Held (Carries p last o w) w.instructions k (rise (w.instructions.take k) - count + c)
            (.name outside.storage outside.index) := by
  obtain ⟨s, body, hs, hbody, hwhole, hstop, hcount⟩ := h.closure_cases hi
  refine ⟨body, hwhole, ?_⟩
  rintro c a ⟨name, symbol, hentry, hcaptured, rfl, harity⟩
  obtain ⟨outside, hsymbol, harity'⟩ :=
    (hwhole.recorded _ List.mem_cons_self).captured hentry hcaptured
  have houtside := hsymbol
  rw [← Array.getElem?_toList] at houtside
  -- the captured name is a variable of the function around
  obtain ⟨hvalid, hbegin, hend⟩ := Within.later hs (h.occurs.valid CompilerState.valid_init)
  have hvariable := hbody.isVariable_of_capture hwhole hvalid (List.mem_of_getElem? houtside)
  have hrecords := h.records_load hcompile (Piece.valid s.runs hvalid)
    (hbegin.trans (s.later hvalid)) hend (.inl hvariable) (harity'.trans harity)
  obtain ⟨_, _, _, span', -, -, -, -, -, hcode⟩ := hbody.function
  generalize body.stateAfter.scopes.current.captures.toList = captures at houtside hcode hcount
  have hlt := (List.getElem?_eq_some_iff.mp houtside).1
  refine ⟨by omega, outside, hsymbol, hrecords, ?_⟩
  have hcarries : Carries p last o w (loadInstruction outside) _ :=
    ⟨pushes_load outside, a, hrecords⟩
  -- it is loaded, and then those that are captured after it
  rw [loads_eq_append houtside] at hcode
  obtain ⟨hjump, -, hpushes⟩ := loadInstruction_pushes outside
  obtain ⟨hbalanced, hrise⟩ := balanced_loads (captures.drop (symbol.index + 1)) span'
  have hafter : ∀ {y j}, (loads (captures.drop (symbol.index + 1)) span')[y]? = some j →
      (j.value.pops : Int) ≤ rise ((loads (captures.drop (symbol.index + 1)) span').take y) ∧
        ¬ j.value.Replaces (.name outside.storage outside.index) := by
    intro y j hj
    exact ⟨(hbalanced hj).pops, not_replaces_of_mem_loads (List.mem_of_getElem? hj) _⟩
  obtain ⟨-, hheld⟩ := h.held hs hcode (fun _ => not_isJump_of_mem_loads_concat hjump) hpushes
    hafter hcarries (List.getElem?_eq_some_iff.mp hi).1 hstop
  have hheight : rise (w.instructions.take k) - count + symbol.index =
      rise (w.instructions.take k) -
        (1 + rise (loads (captures.drop (symbol.index + 1)) span')) := by
    rw [hrise, List.length_drop]
    omega
  rw [hheight]
  exact hheld

/-- The last instruction of a site has an index. -/
theorem Site.Sits.exists_index {whole js : List (Located Instruction)} {s : Site}
    {final : Located Instruction} (hsits : s.Sits whole)
    (hcode : s.code.Extends (js ++ [final]) s.codeAfter) :
    ∃ k, k < whole.length ∧ s.codeAfter.stop = offsetAt whole (k + 1) := by
  obtain ⟨pre, js', post, rfl, hjs, hpre, -⟩ := hsits
  obtain rfl := hjs.unique hcode
  refine ⟨(pre ++ js).length, by simp, ?_⟩
  have hlength : (pre ++ js).length + 1 = (pre ++ (js ++ [final])).length := by simp [Nat.add_assoc]
  rw [hlength, offsetAt, List.take_left, encodeAll_append, List.length_append, hpre, hcode.stop]

/-- How a call by a name is compiled. -/
theorem call_identifier_ok {st st₁ : CompilerState} {code code₁ : Fragment} {name : String}
    {nameSpan span : Span} {args : List Expr}
    (h : (expr (.call (.identifier name nameSpan) args span) code).run st = .ok (code₁, st₁)) :
    ∃ symbol found code', (resolve name nameSpan).run st = .ok (symbol, found) ∧
      (∀ a, symbol.arity? = some a → a = args.length) ∧
      (exprs args (load symbol nameSpan code)).run found = .ok (code', st₁) ∧
      code₁ = code'.emit .call [args.length] span := by
  rw [expr, bind_ok] at h
  obtain ⟨_, _, hlimit, h⟩ := h
  obtain ⟨-, rfl⟩ := limit_ok.mp hlimit
  obtain ⟨symbol, found, hcallee, h⟩ := bind_ok.mp h
  obtain ⟨_, _, hload, h⟩ := bind_ok.mp h
  obtain ⟨rfl, rfl⟩ := pure_ok.mp hload
  obtain ⟨code', _, hargs, h⟩ := bind_ok.mp h
  obtain ⟨rfl, rfl⟩ := pure_ok.mp h
  refine ⟨symbol, found, code', resolve_of_resolveCallee hcallee, fun a ha => ?_, hargs, rfl⟩
  simp only [liftM_self, resolveCallee, bind_ok] at hcallee
  obtain ⟨symbol', _, -, hcallee⟩ := hcallee
  split at hcallee
  · next arity harity =>
    split at hcallee
    · exact absurd hcallee fail_ok
    · next hsame =>
      obtain ⟨rfl, -⟩ := pure_ok.mp hcallee
      rw [harity] at ha
      cases ha
      -- a callee with another number of parameters would have been refused
      exact Classical.not_not.mp hsame
  · next hnone =>
    obtain ⟨rfl, -⟩ := pure_ok.mp hcallee
    rw [hnone] at ha
    cases ha

/-- The arguments of a call by a name are compiled as parts of it, after the name is found. -/
theorem part_of_arg {s part : Site} {name : String} {nameSpan span : Span} {args : List Expr}
    (hpiece : s.piece = .expr (.call (.identifier name nameSpan) args span)) {symbol : Symbol}
    {found : CompilerState} (hresolve : (resolve name nameSpan).run s.state = .ok (symbol, found))
    {before after : List Piece} (hpieces : args.map .expr = before ++ part.piece :: after)
    (hbefore : (Piece.compileAll before (load symbol nameSpan s.code)).run found =
      .ok (part.code, part.state)) : Part s part := by
  have hparts : s.piece.parts = (.expr (.identifier name nameSpan) :: before) ++
      part.piece :: after := by
    rw [hpiece, Piece.parts, hpieces, List.cons_append]
  have hcallee : ((Piece.expr (.identifier name nameSpan)).compile s.code).run s.state =
      .ok (load symbol nameSpan s.code, found) := by
    rw [Piece.compile, expr]
    exact bind_ok.mpr ⟨symbol, found, hresolve, rfl⟩
  have hprepare : s.piece.prepare.run s.state = .ok ((), s.state) := by
    rw [hpiece]
    rfl
  exact .inner hprepare hparts (compileAll_cons_ok.mpr ⟨_, found, hcallee, hbefore⟩)

/-- A slot in which the function at hand may store was given away before the name that has it is
found. -/
theorem index_lt_definitions {st found : CompilerState} {name : String} {nameSpan : Span}
    {symbol : Symbol} (hresolve : (resolve name nameSpan).run st = .ok (symbol, found))
    (hst : st.Valid) (hslot : symbol.IsSlot)
    (hstorage : found.scopes.slotStorage = symbol.storage) :
    symbol.index < found.scopes.current.definitions := by
  have hsound := (resolve_prepares hresolve hst).1.sound.sound
  rcases resolve_found hresolve hst with ⟨-, hentry⟩ | ⟨hfound, hentry⟩
  · exact hsound.slot_lt hentry hslot
  · -- globals are declared in the root
    have hglobal : found.scopes.isGlobal = true := by
      by_contra hlocal
      rw [Scopes.slotStorage, if_neg hlocal] at hstorage
      rw [← hstorage] at hfound
      simp at hfound
    have hroot : found.scopes.root = found.scopes.current := by
      rw [Scopes.root, List.isEmpty_iff.mp hglobal]
      rfl
    rw [hroot] at hentry
    exact hsound.slot_lt hentry hslot

/-- The arguments of a call do not store in the slot of the name that is called, if a number of
parameters is recorded for it: a declaration among them gets a slot of its own. -/
theorem Whole.not_targets_of_args (hcompile : compileFrom {} ast = .ok (p, last))
    (h : Whole {} ast o w) {s : Site} (hs : Within w s) {name : String} {nameSpan span : Span}
    {args : List Expr} (hpiece : s.piece = .expr (.call (.identifier name nameSpan) args span))
    {symbol : Symbol} {found st : CompilerState} {code : Fragment}
    (hresolve : (resolve name nameSpan).run s.state = .ok (symbol, found))
    (hargs : (exprs args (load symbol nameSpan s.code)).run found = .ok (code, st)) {a : Nat}
    (hrecords : Records p last o w (.name symbol.storage symbol.index) a)
    {js : List (Located Instruction)} (hjs : (load symbol nameSpan s.code).Extends js code)
    {j : Located Instruction} (hj : j ∈ js) :
    ¬ j.value.Targets symbol.storage symbol.index := by
  intro htargets
  have hvalid := (Within.later hs (h.occurs.valid CompilerState.valid_init)).1
  have hvalidFound := (resolve_prepares hresolve hvalid).1
  obtain ⟨before', after', hsplit⟩ := List.append_of_mem hj
  rw [exprs_eq] at hargs
  obtain ⟨before, after, part, js', a', b', hpieces, hbefore, hvalidPart, hjs', hsplit', -⟩ :=
    exists_of_compileAll hargs hvalidFound hjs hsplit
  have hpart := part_of_arg hpiece hresolve hpieces hbefore
  have hends := part.ends_of_retains hvalidPart hjs' hsplit' htargets.retains
  rcases h.targets_cases hcompile (hs.tail hpart) hends htargets with
    ⟨d, mutability, name', value, span', hd, hdpiece, -, hstorage, hn, -⟩ |
    ⟨name', symbol', hentry, hstorage, hindex, hmutable⟩
  · -- the slot of the name was given away before
    have hlater :=
      (later_compileAll hbefore hvalidFound).1.trans (Within.later hd hvalidPart).2.1
    have hfound : found.scopes.slotStorage = symbol.storage := by
      rw [← hstorage, Scopes.slotStorage, Scopes.slotStorage, hlater.isGlobal]
    have hlt := index_lt_definitions hresolve hvalid htargets.storage_cases hfound
    have hle := hlater.definitions_le
    omega
  · obtain ⟨-, hconstant⟩ := h.constant_of_knows hcompile htargets.storage_cases
      (hrecords.knows htargets.storage_cases) hentry hstorage hindex
    exact hmutable hconstant

/-- The instruction of a call by a name with a recorded number of parameters passes as many
arguments, and what it calls is what is found under the name. -/
theorem Whole.held_of_call (hcompile : compileFrom {} ast = .ok (p, last)) (h : Whole {} ast o w)
    {s : Site} (hs : Within w s) {name : String} {nameSpan span : Span} {args : List Expr}
    (hpiece : s.piece = .expr (.call (.identifier name nameSpan) args span)) {symbol : Symbol}
    {found : CompilerState} (hresolve : (resolve name nameSpan).run s.state = .ok (symbol, found))
    {a : Nat} (harity : symbol.arity? = some a) :
    ∃ k, w.instructions[k]? = some ⟨⟨.call, [a]⟩, span⟩ ∧
      offsetAt w.instructions (k + 1) = s.codeAfter.stop ∧
      Records p last o w (.name symbol.storage symbol.index) a ∧
      Held (Carries p last o w) w.instructions k (rise (w.instructions.take k) - (1 + a))
        (.name symbol.storage symbol.index) := by
  have hvalid := h.occurs.valid CompilerState.valid_init
  obtain ⟨hvalid', hbegin, hend⟩ := Within.later hs hvalid
  have hruns := s.runs
  rw [hpiece] at hruns
  obtain ⟨symbol', found', code', hresolve', hcount, hargs, hcode'⟩ := call_identifier_ok hruns
  obtain ⟨rfl, rfl⟩ : symbol = symbol' ∧ found = found' := by simpa [hresolve] using hresolve'
  obtain rfl := hcount a harity
  have hvalidFound := (resolve_prepares hresolve hvalid').1
  -- the arguments are pushed above the callee
  obtain ⟨is, hemitted, hplaced⟩ := emits_exprs args hargs hvalidFound
  obtain ⟨-, hplaced⟩ := hplaced hargs
  obtain ⟨hjump, hpops, hpushes⟩ := loadInstruction_pushes symbol
  have hload :
      s.code.Extends [⟨loadInstruction symbol, nameSpan⟩] (load symbol nameSpan s.code) := by
    rw [load_eq]
    exact (Fragment.Extends.refl s.code).emit ..
  have hcode : s.code.Extends ([] ++ ⟨loadInstruction symbol, nameSpan⟩ ::
      moved (load symbol nameSpan s.code).stop is ++ [⟨⟨.call, [args.length]⟩, span⟩])
      s.codeAfter := by
    rw [hcode']
    exact (hload.trans hplaced.extended).emit ..
  -- the name is found before the arguments are compiled
  have hlater : Later found s.stateAfter := by
    rw [exprs_eq] at hargs
    exact (later_compileAll hargs hvalidFound).1
  have hrecords := h.records_load hcompile hvalidFound
    (hbegin.trans (.of_advances (advances_resolve hresolve hvalid'.sound))) (hlater.trans hend)
    (resolve_found hresolve hvalid') harity
  have hcarries : Carries p last o w (loadInstruction symbol) _ := ⟨pushes_load symbol, _, hrecords⟩
  obtain ⟨k, hk, hstop⟩ :=
    (Within.sits hs hvalid (h.sits CompilerState.valid_init)).exists_index hcode
  have hafter : ∀ {y j}, (moved (load symbol nameSpan s.code).stop is)[y]? = some j →
      (j.value.pops : Int) ≤ rise ((moved (load symbol nameSpan s.code).stop is).take y) ∧
        ¬ j.value.Replaces (.name symbol.storage symbol.index) := by
    intro y j hj
    refine ⟨?_, h.not_targets_of_args hcompile hs hpiece hresolve hargs hrecords hplaced.extended
      (List.mem_of_getElem? hj)⟩
    rw [getElem?_moved, Option.map_eq_some_iff] at hj
    obtain ⟨j, hj, rfl⟩ := hj
    rw [take_moved, rise_moved]
    show ((j.value.moved _).pops : Int) ≤ _
    rw [Instruction.pops_moved]
    exact (hemitted.balanced hj).pops
  obtain ⟨hcall, hheld⟩ := h.held hs hcode (by simpa using hjump) hpushes hafter hcarries hk hstop
  rw [rise_moved, hemitted.rise] at hheld
  exact ⟨k, hcall, hstop.symm, hrecords, hheld⟩

end

end Compile

end Bytescript
