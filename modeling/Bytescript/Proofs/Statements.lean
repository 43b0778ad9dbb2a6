/-
Statements, and the trees that are made of them.

Main statements: `realizes_expr` and `realizes_stmts`, by induction on the trees. The machine
follows the evaluation of every part of a tree whose code it runs, provided that it follows calls
of closures.

Design notes: the code of a function body returns in every case, so it realizes the body followed
by a return of its value.
-/
import Bytescript.Proofs.Closures

namespace Bytescript

open Compile (Advances Adds)

variable {S : Setting} {R : Running S} {α β : Type} {caller : Meaning.Caller}

/-! ### Slots -/

/-- The slot of a name, and how a store changes when the slot is set. -/
inductive Running.Slot (R : Running S) (name : String) (s : Symbol) :
    (Value → Store → Store) → Prop where
  | global : S.root.symbols[name]? = some s → s.storage = .globalSlot →
      Slot R name s (Meaning.setGlobal name)
  | inner : R.activation ≠ .main → R.table.symbols[name]? = some s → s.storage = .localSlot →
      Slot R name s (Meaning.setLocal name)

theorem globalValue_storeGlobal (globals : Globals Value) (i j : Nat) (v : Value) :
    globalValue (Machine.storeGlobal globals i v) j =
      if j = i then v else globalValue globals j := by
  rw [globalValue, globalValue, Machine.join_storeGlobal]
  split <;> rfl

section

variable {name : String} {s : Symbol} {v : Value} {op : Opcode} {span : Span}

theorem World.setGlobal {σ : Store} {m : Machine Console Value} (h : World S σ m)
    (hroot : S.root.symbols[name]? = some s) (hs : s.storage = .globalSlot) (hv : Known S σ v) :
    World S (Meaning.setGlobal name v.surface σ)
      { m with globals := Machine.storeGlobal m.globals s.index v } where
  config := h.config
  constants := h.constants
  globals {n s'} hs' hslot' := by
    rw [globalValue_storeGlobal]
    by_cases hn : n = name
    · subst hn
      rw [hroot] at hs'
      cases hs'
      simp [Meaning.setGlobal]
    · -- slots of different names are different
      have hindex : s'.index ≠ s.index := fun heq =>
        hn (S.sound.slot_unique hs' hroot (.inl hslot') (.inl hs) heq)
      rw [if_neg hindex]
      simp only [Meaning.setGlobal, hn, if_false]
      exact h.globals hs' hslot'
  known_globals i := by
    rw [globalValue_storeGlobal]
    split
    · exact hv
    · exact h.known_globals i
  discarded := h.discarded
  known_discarded := h.known_discarded
  console := h.console
  identity := h.identity
  fresh := h.fresh

theorem realizes_setGlobal (hroot : S.root.symbols[name]? = some s)
    (hs : s.storage = .globalSlot) (hop : op = .setGlobal ∨ op = .assignGlobal) :
    Realizes R [v] (fun code => pure (code.emit op [s.index] span))
      (fun _ => modify (Meaning.setGlobal name v.surface)) (fun _ vs => vs = []) := by
  have hslot := S.sound.slot_lt hroot (.inl hs)
  have hindex : s.index < 65536 := Nat.lt_of_lt_of_le hslot S.limit
  refine realizes_emit (Instruction.fits_wide (by rcases hop with rfl | rfl <;> rfl) hindex)
    fun {scope σ ip temps m m₁} hfetched => ?_
  obtain ⟨ip₀, hip, hframes⟩ := hfetched.frames
  obtain ⟨stack, hstack, hat⟩ := hfetched.at_.drop
  have hturn := Machine.turn_setGlobal hop hfetched.fetches hstack
  have hv : Known S σ v := hfetched.at_.known v (by simp)
  show Comes S _ m
  by_cases hsize : s.index < m₁.config.globalsSize
  · rw [if_pos hsize] at hturn
    have hat' : At R (Meaning.setGlobal name v.surface σ) ip temps
        { m₁ with
          stack := stack.toArray, globals := Machine.storeGlobal m₁.globals s.index v } :=
      hat.of_world (fun _ _ hr => hr) rfl (hat.world.setGlobal hroot hs hv) rfl rfl
    refine (hat'.next hframes hip hturn).bind fun m' hm' => .here ⟨[], rfl, ?_⟩
    rwa [List.append_nil]
  · -- a machine with few globals may have no room for the slot
    rw [if_neg hsize] at hturn
    refine .halts hturn (.global ?_ hslot)
    rw [← hfetched.at_.world.config]
    exact Nat.not_lt.mp hsize

theorem Locals.set {σ : Store} {locals : List Value} (h : Locals R σ locals)
    (htable : R.table.symbols[name]? = some s) (hs : s.storage = .localSlot) (hv : Known S σ v) :
    Locals R (Meaning.setLocal name v.surface σ) (locals.set s.index v) where
  length := by rw [List.length_set, h.length]
  known w hw := by
    rcases List.mem_or_eq_of_mem_set hw with hw | rfl
    · exact h.known w hw
    · exact hv
  value {n s'} hs' hslot' := by
    obtain ⟨w, hw, hvalue⟩ := h.value hs' hslot'
    by_cases hn : n = name
    · subst hn
      rw [htable] at hs'
      cases hs'
      refine ⟨v, ?_, by simp [Meaning.setLocal]⟩
      rw [List.getElem?_set_self (List.getElem?_eq_some_iff.mp hw).1]
    · -- other locals have other slots
      have hindex : s.index ≠ s'.index := fun heq =>
        hn (R.sound.slot_unique hs' htable (.inr hslot') (.inr hs) heq.symm)
      refine ⟨w, by rw [List.getElem?_set_ne hindex, hw], ?_⟩
      simp only [Meaning.setLocal, hn, if_false]
      exact hvalue

theorem realizes_setLocal (hactivation : R.activation ≠ .main)
    (htable : R.table.symbols[name]? = some s) (hs : s.storage = .localSlot)
    (hop : op = .setLocal ∨ op = .assignLocal) :
    Realizes R [v] (fun code => pure (code.emit op [s.index] span))
      (fun _ => modify (Meaning.setLocal name v.surface)) (fun _ vs => vs = []) := by
  have hlocals : R.closure.code.locals = R.table.definitions ∧
      R.table.definitions ≤ Compile.maxNarrow + 1 := by
    cases hcall : R.activation with
    | main => exact absurd hcall hactivation
    | call self? captured => exact ⟨(R.called hcall).2.locals, (R.called hcall).2.locals_le⟩
  have hslot := R.sound.slot_lt htable (.inr hs)
  have hindex : s.index < 256 := Nat.lt_of_lt_of_le hslot hlocals.2
  refine realizes_emit (Instruction.fits_narrow (by rcases hop with rfl | rfl <;> rfl) hindex)
    fun {scope σ ip temps m m₁} hfetched => ?_
  obtain ⟨ip₀, hip, hframes⟩ := hfetched.frames
  obtain ⟨locals, hstack, hmatch⟩ := hfetched.at_.stack
  rw [← List.append_assoc] at hstack
  have hlt : s.index < locals.length := by
    rw [hmatch.length, hlocals.1]
    exact hslot
  have hturn := Machine.turn_setLocal hop hfetched.fetches hfetched.at_.frames hstack
    (by simp [Running.frame]; omega)
  -- the slot lies above what the callers left on the stack and below the temporaries
  have hset : (R.below ++ locals ++ temps).set ((R.frame ip).base + s.index) v =
      R.below ++ locals.set s.index v ++ temps := by
    rw [List.append_assoc, List.set_append_right _ _ (by simp [Running.frame]),
      List.set_append_left _ _ (by simp [Running.frame]; omega), List.append_assoc]
    simp [Running.frame]
  rw [hset] at hturn
  have hv : Known S σ v := hfetched.at_.known v (by simp)
  have hat : At R (Meaning.setLocal name v.surface σ) ip temps
      { m₁ with stack := (R.below ++ locals.set s.index v ++ temps).toArray } :=
    { world := (hfetched.at_.world.move _ _).withLocals _
      frames := hfetched.at_.frames
      stack := ⟨_, rfl, hmatch.set htable hs hv⟩
      known := fun w hw => hfetched.at_.known w (List.mem_append_left _ hw)
      within := hfetched.at_.within
      self := hfetched.at_.self
      offset := hfetched.at_.offset
      height := Nat.le_trans (by simp) hfetched.at_.height }
  refine .pure ((hat.next hframes hip hturn).bind fun m' hm' => .here ⟨[], rfl, ?_⟩)
  rwa [List.append_nil]

/-- The instruction that sets the slot of a name. -/
theorem realizes_store {set : Value → Store → Store} (h : R.Slot name s set)
    (hglobal : s.storage = .globalSlot → op = .setGlobal ∨ op = .assignGlobal)
    (hlocal : s.storage = .localSlot → op = .setLocal ∨ op = .assignLocal) :
    Realizes R [v] (fun code => pure (code.emit op [s.index] span))
      (fun _ => modify (set v.surface)) (fun _ vs => vs = []) := by
  cases h with
  | global hroot hs => exact realizes_setGlobal hroot hs (hglobal hs)
  | inner hactivation htable hs => exact realizes_setLocal hactivation htable hs (hlocal hs)

end

/-! ### Single statements -/

/-- The code of a statement realizes its meaning. -/
abbrev RealizesStmt (R : Running S) (caller : Meaning.Caller) (s : Stmt) : Prop :=
  Realizes R [] (Compile.stmt s) (Meaning.stmt .evaluation caller R.activation · s)
    fun _ vs => vs = []

theorem World.setDiscarded {σ : Store} {m : Machine Console Value} {v : Value} (h : World S σ m)
    (hv : Known S σ v) :
    World S { σ with discarded := some v.surface } { m with lastPopped := some v } :=
  { h with
    discarded := rfl
    known_discarded := fun w hw => by
      cases hw
      exact hv }

theorem realizes_pop (v : Value) (span : Span) :
    Realizes R [v] (fun code => pure (code.emit .pop [] span))
      (fun _ => modify fun σ => { σ with discarded := some v.surface }) (fun _ vs => vs = []) := by
  refine realizes_emit (Instruction.fits_nil rfl) fun {scope σ ip temps m m₁} hfetched => ?_
  obtain ⟨ip₀, hip, hframes⟩ := hfetched.frames
  obtain ⟨stack, hstack, hat⟩ := hfetched.at_.drop
  have hv : Known S σ v := hfetched.at_.known v (by simp)
  have hat' : At R { σ with discarded := some v.surface } ip temps
      { m₁ with stack := stack.toArray, lastPopped := some v } :=
    hat.of_world (fun _ _ hr => hr) rfl (hat.world.setDiscarded hv) rfl rfl
  have hturn := Machine.turn_pop hfetched.fetches hstack
  refine .pure ((hat'.next hframes hip hturn).bind fun m' hm' => .here ⟨[], rfl, ?_⟩)
  rwa [List.append_nil]

theorem realizes_expression {e : Expr} (h : RealizesExpr R caller e) (span : Span) :
    RealizesStmt R caller (.expression e span) := by
  refine (h.seq (fun v _ => modify fun σ => { σ with discarded := some v })
    (Compile.adds_expr e) (.emit .pop [] span) ?_).of_eq
    (fun code => by rw [Compile.stmt]; rfl) fun scope => by rw [Meaning.stmt]
  rintro _ _ ⟨v, rfl, rfl⟩
  exact realizes_pop v span

/-- The slot of a name that has just been declared. -/
theorem slot_declare {scope : List String} {st st₁ : CompilerState} {scopes scopes' : Scopes}
    {name : String} {mutability : Mutability} {s : Symbol} {declared mentioned : List String}
    (htracks : R.Tracks scope st) (hwithin : st₁.Within S R.table)
    (hdefine : st.scopes.define name mutability = .ok (s, scopes))
    (hscopes : scopes' = scopes ∨ ∃ arity, scopes' = scopes.recordArity name arity)
    (hadvances : Advances declared mentioned { st with scopes := scopes' } st₁) :
    ∃ s' : Symbol, s'.index = s.index ∧ s'.storage = s.storage ∧
      ∃ set, R.Slot name s' set ∧
        ∀ v, Meaning.declare R.activation name v = modify (set v) := by
  obtain ⟨-, houter, hstorage, hindex, s', hname, hstorage', hdeclared⟩ :=
    Scopes.declare_spec htracks.sound hdefine hscopes
  have hwithin' := hwithin.of_advances hadvances
  have hentry : scopes'.current.symbols[name]? = some s' := by
    rw [hdeclared.symbols, if_pos hname]
  refine ⟨s', hdeclared.index.trans hindex.symm, hstorage'.trans hstorage.symm, ?_⟩
  cases hactivation : R.activation with
  | main =>
    -- the statements of the program declare globals
    have hroot := htracks.main hactivation
    have hs' : s'.storage = .globalSlot := by
      rw [hstorage', Scopes.slotStorage, Scopes.isGlobal, hroot]
      rfl
    obtain ⟨declared', hgrows⟩ := hwithin'.root
    have hcurrent : scopes'.root = scopes'.current := by
      rw [Scopes.root, houter, hroot]
      rfl
    rw [hcurrent] at hgrows
    exact ⟨_, .global (hgrows.entry hentry (by simp [hs'])) hs', fun v => rfl⟩
  | call self? captured =>
    have hs' : s'.storage = .localSlot := by
      have hinner := htracks.inner (by simp [hactivation])
      rw [hstorage', Scopes.slotStorage, Scopes.isGlobal]
      simp [hinner]
    obtain ⟨declared', hgrows⟩ := hwithin'.table
    exact ⟨_, .inner (by simp [hactivation]) (hgrows.entry hentry (by simp [hs'])) hs',
      fun v => rfl⟩

theorem realizes_declare {value : Expr} (h : RealizesExpr R caller value)
    (mutability : Mutability) (name : String) (span : Span) :
    RealizesStmt R caller (.declare mutability name value span) := by
  intro scope code code₁ st st₁ σ temps m hrun htracks hwithin hholds hat
  obtain ⟨s, scopes, scopes', code', hdefine, hscopes, hvalue, hindex, rfl⟩ :=
    Compile.declare_ok hrun
  -- the name is known before its value is compiled
  have hname := Compile.advances_declare htracks.sound hdefine hscopes hindex
  obtain ⟨hadvances, hbegins⟩ := (Compile.adds_expr value).advances hvalue hname.sound
  have htracks₁ := (htracks.advance hname).advance hadvances
  obtain ⟨s', hindex', hstorage', set, hslot, hdeclare⟩ :=
    slot_declare htracks hwithin hdefine hscopes hadvances
  obtain ⟨hholds, hholds'⟩ := hholds.split hbegins (.emit _ _ _ _)
  dsimp only
  rw [Meaning.stmt]
  refine (h hvalue (htracks.advance hname) hwithin hholds hat).bind ?_
  rintro _ σ' m' ⟨_, ⟨v, rfl, rfl⟩, hat'⟩
  rw [hdeclare]
  rw [← hindex', ← hstorage'] at hholds' ⊢
  refine realizes_store hslot ?_ ?_ (Compile.pure_ok.mpr ⟨rfl, rfl⟩) htracks₁ hwithin hholds' hat'
  · intro hs
    simp [hs]
  · intro hs
    simp [hs]

/-- The slot of a name that is assigned. -/
theorem slot_assign {scope : List String} {st st' st₁ : CompilerState} {name : String}
    {span : Span} {s : Symbol} {declared mentioned : List String} (htracks : R.Tracks scope st)
    (hwithin : st₁.Within S R.table) (h : (Compile.resolveTarget name span).run st = .ok (s, st'))
    (hadvances : Advances declared mentioned st' st₁) :
    ∃ set, R.Slot name s set ∧
      ∀ v, Meaning.assign R.activation scope name v = modify (set v) := by
  obtain ⟨hresolve, hslot, -⟩ := Compile.resolveTarget_ok h
  have htracks' := htracks.advance (Compile.advances_resolve hresolve htracks.sound)
  rw [List.append_nil] at htracks'
  obtain ⟨scopes, hfind, rfl⟩ := Compile.withScopes_ok.mp hresolve
  obtain ⟨hsound, -, hfound⟩ := Scopes.resolve_spec htracks.sound hfind
  have hwithin' := hwithin.of_advances hadvances
  rcases hfound with ⟨hvariable, hentry⟩ | ⟨hroot, hfree⟩
  · -- a variable with a slot is a local
    have hs : s.storage = .localSlot := by
      rcases hslot with hs | hs
      · simp [Symbol.IsVariable, hs] at hvariable
      · exact hs
    have hscope : name ∈ scope := (htracks'.scope name).mpr ⟨s, hentry, .inr hs⟩
    obtain ⟨declared', hgrows⟩ := hwithin'.table
    have htable := hgrows.entry hentry (by simp [hs])
    cases hactivation : R.activation with
    | main =>
      -- the root table has no locals
      have hisRoot := htracks'.sound.isRoot
      rw [htracks'.main hactivation] at hisRoot
      rcases hisRoot.storage hentry with ⟨hs', -⟩ | ⟨hs', -⟩ <;> rw [hs] at hs' <;> cases hs'
    | call self? captured =>
      refine ⟨_, .inner (by simp [hactivation]) htable hs, fun v => ?_⟩
      simp [Meaning.assign, hscope]
  · have hs : s.storage = .globalSlot := by
      rcases hsound.isRoot.storage hroot with ⟨hs, -⟩ | ⟨hs, -⟩
      · exact hs
      · rcases hslot with hs' | hs' <;> rw [hs] at hs' <;> cases hs'
    obtain ⟨declared', hgrows⟩ := hwithin'.root
    refine ⟨_, .global (hgrows.entry hroot (by simp [hs])) hs, fun v => ?_⟩
    cases hactivation : R.activation with
    | main => rfl
    | call self? captured =>
      -- a name of the scope would have been found before the root
      have hscope : name ∉ scope := by
        intro hmem
        obtain ⟨s', hs', -⟩ := (htracks.scope name).mp hmem
        obtain ⟨next, outer, houter⟩ :=
          List.exists_cons_of_ne_nil (htracks.inner (by simp [hactivation]))
        rw [houter] at hfree
        exact hfree (.inl ⟨s', hs'⟩)
      simp [Meaning.assign, hscope]

theorem realizes_assign {value : Expr} (h : RealizesExpr R caller value) (name : String)
    (span : Span) : RealizesStmt R caller (.assign name value span) := by
  intro scope code code₁ st st₁ σ temps m hrun htracks hwithin hholds hat
  simp only [Compile.stmt, Compile.bind_ok, Compile.pure_ok] at hrun
  obtain ⟨s, st', htarget, code', _, hvalue, rfl, rfl⟩ := hrun
  have hresolve := Compile.advances_resolve (Compile.resolveTarget_ok htarget).1 htracks.sound
  obtain ⟨hadvances, hbegins⟩ := (Compile.adds_expr value).advances hvalue hresolve.sound
  have htracks' := htracks.advance hresolve
  rw [List.append_nil] at htracks'
  -- the target is resolved before the value, and what the value declares does not move it
  obtain ⟨set, hslot, hassign⟩ := slot_assign htracks hwithin htarget hadvances
  have hemit : Compile.assign s span code' = code'.emit
      (if s.storage = .globalSlot then .assignGlobal else .assignLocal) [s.index] span := by
    rw [Compile.assign]
    split <;> rfl
  rw [hemit] at hholds ⊢
  obtain ⟨hholds, hholds'⟩ := hholds.split hbegins (.emit _ _ _ _)
  dsimp only
  rw [Meaning.stmt]
  refine (h hvalue htracks' hwithin hholds hat).bind ?_
  rintro _ σ' m' ⟨_, ⟨v, rfl, rfl⟩, hat'⟩
  rw [hassign]
  refine realizes_store hslot ?_ ?_ (Compile.pure_ok.mpr ⟨rfl, rfl⟩)
    (htracks'.advance hadvances) hwithin hholds' hat'
  · intro hs
    simp [hs]
  · intro hs
    simp [hs]

/-! ### Returns -/

section

variable {result : α → List Value → Prop}

theorem realizes_returnNull (span : Span) :
    Realizes R [] (fun code => pure (code.emit .ret [] span))
      (fun _ => throw (.returned .null)) result := by
  refine realizes_emit (Instruction.fits_nil rfl) fun {scope σ ip temps m m₁} hfetched => ?_
  obtain ⟨ip₀, -, hframes⟩ := hfetched.frames
  exact .here ⟨.null, m₁, ip₀, ip, _, rfl, trivial, hframes,
    Machine.turn_ret hfetched.fetches, hfetched.at_⟩

theorem realizes_returnValue (v : Value) (span : Span) :
    Realizes R [v] (fun code => pure (code.emit .returnValue [] span))
      (fun _ => throw (.returned v.surface)) result := by
  refine realizes_emit (Instruction.fits_nil rfl) fun {scope σ ip temps m m₁} hfetched => ?_
  obtain ⟨ip₀, -, hframes⟩ := hfetched.frames
  obtain ⟨stack, hstack, hat⟩ := hfetched.at_.drop
  exact .here ⟨v, _, ip₀, ip, _, rfl, hfetched.at_.known v (by simp), hframes,
    Machine.turn_returnValue hfetched.fetches hstack, hat⟩

theorem realizes_ret {value : Option Expr} (h : ∀ e, value = some e → RealizesExpr R caller e)
    (span : Span) {result : Unit → List Value → Prop} :
    Realizes R [] (Compile.stmt (.ret value span))
      (Meaning.stmt .evaluation caller R.activation · (.ret value span)) result := by
  cases value with
  | none =>
    exact (realizes_returnNull span).of_eq (fun code => by rw [Compile.stmt]; rfl)
      fun scope => by rw [Meaning.stmt]
  | some e =>
    refine ((h e rfl).seq (fun v _ => throw (.returned v)) (Compile.adds_expr e)
      (.emit .returnValue [] span) ?_).of_eq
      (fun code => by rw [Compile.stmt]; rfl) fun scope => by rw [Meaning.stmt]
    rintro _ _ ⟨v, rfl, rfl⟩
    exact realizes_returnValue v span

/-- What comes after a return is not evaluated. -/
theorem Realizes.of_never {before : List Value} {part : Fragment → Compile Fragment}
    {meaning : List String → Meaning β} (h : Realizes R before part meaning fun _ _ => False)
    (meaning' : β → List String → Meaning α) :
    Realizes R before part (fun scope => meaning scope >>= fun a => meaning' a scope) result := by
  intro scope code code₁ st st₁ σ temps m hrun htracks hwithin hholds hat
  refine (h hrun htracks hwithin hholds hat).bind ?_
  rintro a σ' m' ⟨vs, hfalse, -⟩
  exact hfalse.elim

end

/-! ### Trees -/

/-- The code of statements that are an arm of a conditional realizes their meaning. -/
abbrev RealizesArm (R : Running S) (caller : Meaning.Caller) (span : Span)
    (statements : List Stmt) : Prop :=
  Realizes R [] (Compile.block .arm (.mk statements span))
    (Meaning.valued .evaluation caller R.activation · statements) IsValue

/-- The code of the statements of a function body realizes a return of their value. -/
abbrev RealizesBody (R : Running S) (caller : Meaning.Caller) (span : Span)
    (statements : List Stmt) : Prop :=
  Realizes R [] (Compile.block .body (.mk statements span))
    (fun scope => do
      let v ← Meaning.valued .evaluation caller R.activation scope statements
      throw (.returned v))
    fun (_ : Empty) _ => False

section

variable {s : Stmt} {rest : List Stmt} {span : Span}

theorem realizes_arm_nil : RealizesArm R caller span [] :=
  (realizes_push (Instruction.fits_nil rfl) Machine.turn_null trivial
    fun _ => by rw [Meaning.valued]; rfl).of_part (Compile.block_nil .arm span)

theorem realizes_arm_cons
    (h : rest = [] → ∀ e span, s ≠ .expression e span) (hs : RealizesStmt R caller s)
    (hrest : RealizesArm R caller span rest) : RealizesArm R caller span (s :: rest) := by
  refine (hs.seq (fun _ scope => Meaning.valued .evaluation caller R.activation scope rest)
    (Compile.adds_stmt s) (Compile.adds_block .arm (.mk rest span)) ?_).of_eq
    (Compile.block_cons (fun hnil => ⟨h hnil, by simp⟩) span) (Meaning.valued_cons h)
  rintro _ _ rfl
  exact hrest

theorem realizes_body_nil : RealizesBody R caller span [] :=
  (realizes_returnNull span).of_eq (Compile.block_nil .body span)
    fun scope => by rw [Meaning.valued, pure_bind]

theorem realizes_body_expression {e : Expr} {span' : Span} (h : RealizesExpr R caller e) :
    RealizesBody R caller span [.expression e span'] := by
  refine (h.seq (fun v _ => throw (.returned v)) (Compile.adds_expr e)
    (.emit .returnValue [] span') ?_).of_eq
    (Compile.block_body_expression e span span') fun scope => by rw [Meaning.valued]
  rintro _ _ ⟨v, rfl, rfl⟩
  exact realizes_returnValue v span'

theorem realizes_body_ret {value : Option Expr} {span' : Span}
    (h : ∀ e, value = some e → RealizesExpr R caller e) :
    RealizesBody R caller span [.ret value span'] := by
  refine ((realizes_ret h span').of_never fun _ scope => do
    let v ← Meaning.valued .evaluation caller R.activation
      (scope ++ (Stmt.ret value span').declared) []
    throw (.returned v)).of_eq (Compile.block_body_ret value span span') fun scope => ?_
  rw [Meaning.valued_cons (by simp), bind_assoc]

theorem realizes_body_cons
    (h : rest = [] → (∀ e span, s ≠ .expression e span) ∧ ∀ value span, s ≠ .ret value span)
    (hs : RealizesStmt R caller s) (hrest : RealizesBody R caller span rest) :
    RealizesBody R caller span (s :: rest) := by
  refine (hs.seq (fun _ scope => do
      let v ← Meaning.valued .evaluation caller R.activation scope rest
      throw (.returned v)) (Compile.adds_stmt s)
    (Compile.adds_block .body (.mk rest span)) ?_).of_eq
    (Compile.block_cons (fun hnil => ⟨(h hnil).1, fun _ => (h hnil).2⟩) span) fun scope => ?_
  · rintro _ _ rfl
    exact hrest
  · rw [Meaning.valued_cons fun hnil => (h hnil).1, bind_assoc]

end

mutual

theorem realizes_expr (hcalls : FollowsCalls R caller) : ∀ e : Expr, RealizesExpr R caller e
  | .identifier name span => realizes_identifier name span
  | .integer value _ => (realizes_constant (v := .integer value) (fun _ => rfl) trivial
      fun _ => by rw [Meaning.expr]; rfl).of_part fun _ => by rw [Compile.expr]; rfl
  | .float value _ => (realizes_constant (v := .float value) (fun _ => rfl) trivial
      fun _ => by rw [Meaning.expr]; rfl).of_part fun _ => by rw [Compile.expr]; rfl
  | .string value _ => (realizes_constant (v := .string value) (fun _ => rfl) trivial
      fun _ => by rw [Meaning.expr]; rfl).of_part fun _ => by rw [Compile.expr]; rfl
  | .boolean value _ => (realizes_push (Instruction.fits_nil (by cases value <;> rfl))
      (Machine.turn_boolean value) trivial fun _ => by rw [Meaning.expr]; rfl).of_part
      fun _ => by rw [Compile.expr]; rfl
  | .null _ => (realizes_push (Instruction.fits_nil rfl) Machine.turn_null trivial
      fun _ => by rw [Meaning.expr]; rfl).of_part fun _ => by rw [Compile.expr]; rfl
  | .unary op operand span => realizes_unary (realizes_expr hcalls operand) op span
  | .binary op left right span =>
    realizes_binary (realizes_expr hcalls left) (realizes_expr hcalls right) op span
  | .conditional condition thenBranch elseBranch span =>
    realizes_conditional (realizes_expr hcalls condition) (realizes_block hcalls thenBranch)
      (realizes_alternative hcalls elseBranch span)
  | .function name? params body span => realizes_function name? params body span
  | .call callee args span =>
    realizes_call hcalls (realizes_expr hcalls callee) (realizes_exprs hcalls args) span
  | .array elements span => realizes_array (realizes_exprs hcalls elements) span
  | .hash pairs span => realizes_hash (realizes_entries hcalls pairs) span
  | .index object index span =>
    realizes_index (realizes_expr hcalls object) (realizes_expr hcalls index) span

theorem realizes_exprs (hcalls : FollowsCalls R caller) :
    ∀ es : List Expr, RealizesExprs R caller es
  | [] => realizes_exprs_nil
  | e :: rest => realizes_exprs_cons (realizes_expr hcalls e) (realizes_exprs hcalls rest)

theorem realizes_entries (hcalls : FollowsCalls R caller) :
    ∀ pairs : List (Expr × Expr), RealizesEntries R caller pairs
  | [] => realizes_entries_nil
  | (key, value) :: rest =>
    realizes_entries_cons (realizes_expr hcalls key) (realizes_expr hcalls value)
      (realizes_entries hcalls rest)

theorem realizes_alternative (hcalls : FollowsCalls R caller) :
    ∀ (arm : Option Block) (span : Span), RealizesAlternative R caller arm span
  | none, _ => (realizes_push (Instruction.fits_nil rfl) Machine.turn_null trivial
      fun _ => by rw [Meaning.alternative]; rfl).of_part fun _ => by rw [Compile.alternative]; rfl
  | some arm, _ => (realizes_block hcalls arm).of_eq (fun _ => by rw [Compile.alternative])
      fun _ => by rw [Meaning.alternative]

theorem realizes_block (hcalls : FollowsCalls R caller) : ∀ b : Block, RealizesBlock R caller b
  | .mk statements span => (realizes_arm hcalls span statements).of_eq (fun _ => rfl)
      fun _ => by rw [Meaning.block]

theorem realizes_arm (hcalls : FollowsCalls R caller) :
    ∀ (span : Span) (statements : List Stmt), RealizesArm R caller span statements
  | _, [] => realizes_arm_nil
  | span, [.expression e span'] => (realizes_expr hcalls e).of_eq
      (Compile.block_arm_expression e span span') fun _ => by rw [Meaning.valued]
  | span, [.ret value span'] =>
    realizes_arm_cons (by simp) (realizes_stmt hcalls (.ret value span'))
      (realizes_arm hcalls span [])
  | span, [.declare mutability name value span'] => realizes_arm_cons (by simp)
      (realizes_stmt hcalls (.declare mutability name value span')) (realizes_arm hcalls span [])
  | span, [.assign name value span'] => realizes_arm_cons (by simp)
      (realizes_stmt hcalls (.assign name value span')) (realizes_arm hcalls span [])
  | span, s :: s' :: rest => realizes_arm_cons (by simp) (realizes_stmt hcalls s)
      (realizes_arm hcalls span (s' :: rest))

theorem realizes_stmt (hcalls : FollowsCalls R caller) : ∀ s : Stmt, RealizesStmt R caller s
  | .expression e span => realizes_expression (realizes_expr hcalls e) span
  | .declare mutability name value span =>
    realizes_declare (realizes_expr hcalls value) mutability name span
  | .assign name value span => realizes_assign (realizes_expr hcalls value) name span
  | .ret none span => realizes_ret (by simp) span
  | .ret (some value) span => realizes_ret (by
      rintro _ ⟨⟩
      exact realizes_expr hcalls value) span

end

theorem realizes_body (hcalls : FollowsCalls R caller) (span : Span) (statements : List Stmt) :
    RealizesBody R caller span statements := by
  induction statements with
  | nil => exact realizes_body_nil
  | cons s rest ih =>
    -- only the last statement may be what the body returns
    cases rest with
    | cons s' rest =>
      exact realizes_body_cons (by simp) (realizes_stmt hcalls s) ih
    | nil =>
      cases s with
      | expression e span' => exact realizes_body_expression (realizes_expr hcalls e)
      | ret value span' => exact realizes_body_ret fun e _ => realizes_expr hcalls e
      | declare | assign => exact realizes_body_cons (by simp) (realizes_stmt hcalls _) ih

theorem realizes_stmts (hcalls : FollowsCalls R caller) (statements : List Stmt) :
    Realizes R [] (Compile.stmts statements)
      (Meaning.stmts .evaluation caller R.activation · statements) fun _ vs => vs = [] := by
  induction statements with
  | nil =>
    exact (realizes_nothing () rfl).of_eq (fun _ => by rw [Compile.stmts])
      fun _ => by rw [Meaning.stmts]
  | cons s rest ih =>
    refine ((realizes_stmt hcalls s).seq
      (fun _ scope => Meaning.stmts .evaluation caller R.activation scope rest)
      (Compile.adds_stmt s) (Compile.adds_stmts rest) ?_).of_eq
      (fun _ => by rw [Compile.stmts]) fun _ => by rw [Meaning.stmts]
    rintro _ _ rfl
    exact ih

end Bytescript
