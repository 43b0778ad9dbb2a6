/-
Where the instructions of a compiled program come from.

A compiled program has several codes: the main one, and one for each function of its pool. Each is
the code of a `Whole` site. `Program.codeOf?` takes them by the index of the function, none for the
main code.

Main statements:

* `Whole.lists` — the instructions of a whole site are those of its code;
* `Whole.exists_owns` — every instruction comes from one piece of the tree, and has its span;
* `Whole.store_cases` — an instruction that stores in a slot is that of the declaration which gave
  the slot away, or of an assignment to a name that may be assigned;
* `Whole.closure_cases` — an instruction that makes a closure is that of the function around the
  body from which the constant was made.
-/
import Bytescript.Proofs.Frames
import Bytescript.Proofs.Incremental
import Bytescript.Proofs.Occurrences

namespace Bytescript

/-- The code of a program: the main one, or that of the function at an index of the pool. -/
def Program.codeOf? (p : Program) : Option Nat → Option FunctionCode
  | none => some { code := p.code }
  | some j =>
    match p.constants[j]? with
    | some (.function f) => some f
    | _ => none

theorem Program.codeOf?_some {p : Program} {j : Nat} {f : FunctionCode} :
    p.codeOf? (some j) = some f ↔ p.constants[j]? = some (.function f) := by
  rw [codeOf?]
  split
  · next g hg => simp [hg]
  · next hne =>
    constructor
    · intro h
      cases h
    · intro h
      exact absurd h (hne f)

/-- The instruction stores a value in a slot. -/
def Instruction.Targets (i : Instruction) (storage : Storage) (n : Nat) : Prop :=
  i.operands = [n] ∧
    (storage = .globalSlot ∧ (i.opcode = .setGlobal ∨ i.opcode = .assignGlobal) ∨
      storage = .localSlot ∧ (i.opcode = .setLocal ∨ i.opcode = .assignLocal))

theorem Instruction.Targets.storage_cases {i : Instruction} {storage : Storage} {n : Nat}
    (h : i.Targets storage n) : storage = .globalSlot ∨ storage = .localSlot := by
  obtain ⟨-, ⟨hglobal, -⟩ | ⟨hlocal, -⟩⟩ := h
  · exact .inl hglobal
  · exact .inr hlocal

theorem Instruction.Targets.retains {i : Instruction} {storage : Storage} {n : Nat}
    (h : i.Targets storage n) : i.opcode.Retains := by
  obtain ⟨-, ⟨-, hop | hop⟩ | ⟨-, hop | hop⟩⟩ := h <;> simp [hop, Opcode.Retains]

namespace Compile

/-- The instructions before the end of a site. -/
abbrev Site.instructions (s : Site) : List (Located Instruction) :=
  s.codeAfter.instructions.toList

section

variable {st : CompilerState} {ast : Ast} {o : Option Nat} {s w : Site}

/-- What the compiler keeps holds wherever it comes to. -/
theorem Kept.occurs {Inv : CompilerState → Prop} (h : Kept Inv) (hst : st.Valid) (hinv : Inv st)
    (hs : Occurs st ast o s) : s.state.Valid ∧ Inv s.state := by
  induction hs with
  | program _ _ hstate => exact hstate ▸ ⟨hst, hinv⟩
  | @part o s part _ hpart ih =>
    obtain ⟨hvalid, hs⟩ := ih
    refine ⟨(hpart.later hvalid).1, ?_⟩
    cases hpart with
    | inner hprepare _ hbefore =>
      exact Kept.compileAll (fun t _ {_ _ _ _} hrun => h.compile hrun) hbefore
        (Piece.valid_prepare hprepare hvalid) (h.prepare hprepare hvalid hs)
    | @arm a b c harms hmem =>
      obtain ⟨hva, hvb, -⟩ := harms.valid hvalid
      have ha : Inv a.state := harms.state_a ▸ hs
      have hb : Inv b.state := harms.state_b ▸ h.compile a.runs hva ha
      have hc : Inv c.state := harms.state_c ▸ h.compile b.runs hvb hb
      simp only [List.mem_cons, List.not_mem_nil, or_false] at hmem
      rcases hmem with rfl | rfl | rfl
      · exact ha
      · exact hb
      · exact hc
  | body _ hbody ih =>
    obtain ⟨hvalid, hs⟩ := ih
    obtain ⟨_, _, _, _, -, henter, -⟩ := hbody.function
    exact ⟨hbody.valid hvalid, h.enterFunction hvalid henter hs⟩

theorem Occurs.valid (hst : st.Valid) (h : Occurs st ast o s) : s.state.Valid := by
  obtain ⟨program, hprogram, hinside⟩ := h.inside
  refine (hinside.after ?_).1
  cases hprogram with
  | program _ _ hstate => exact hstate ▸ hst

/-- Only the pieces of the main code are compiled with the root as the current table. -/
theorem Occurs.isGlobal (hst : st.Valid) (houter : st.scopes.outer = []) (h : Occurs st ast o s) :
    s.state.scopes.isGlobal = o.isNone := by
  induction h with
  | program _ _ hstate =>
    rw [hstate]
    simp [Scopes.isGlobal, houter]
  | part hs hpart ih => rw [← (hpart.later (hs.valid hst)).2.1.isGlobal, ih]
  | body hs hbody ih =>
    obtain ⟨_, _, _, _, -, henter, -⟩ := hbody.function
    obtain ⟨t, -, hentered⟩ := enterFunction_ok henter (hs.valid hst).sound
    rw [← hentered]
    rfl

/-- Globals are declared in the main code. -/
theorem Occurs.eq_none_of_global (h : Occurs {} ast o s)
    (hslot : s.state.scopes.slotStorage = .globalSlot) : o = none := by
  rw [Scopes.slotStorage, h.isGlobal CompilerState.valid_init rfl] at hslot
  cases o with
  | none => rfl
  | some j => cases hslot

theorem Whole.code_eq (h : Whole st ast o w) : w.code = {} := by
  cases h with
  | program _ hcode _ => exact hcode
  | body _ hbody =>
    obtain ⟨-, -, -, hcode, -⟩ := hbody
    exact hcode

/-- The code of a whole site stands alone. -/
theorem Whole.emitted (hst : st.Valid) (h : Whole st ast o w) :
    ∃ count, Emitted w.state w.stateAfter count w.instructions ∧ TargetsFit 0 w.instructions := by
  obtain ⟨count, hemits⟩ := w.piece.emits
  obtain ⟨is, hemitted, hplaced⟩ := hemits w.runs (h.occurs.valid hst)
  obtain ⟨-, hplaced⟩ := hplaced w.runs
  have hstop : w.code.stop = 0 := by rw [h.code_eq]; rfl
  have heq : w.instructions = is := by
    have hinstructions := hplaced.extended.instructions
    rw [hstop, moved_zero, h.code_eq] at hinstructions
    exact hinstructions
  have htargets := hplaced.targets
  rw [hstop] at htargets
  rw [heq]
  exact ⟨count, hemitted, htargets⟩

theorem Whole.sits (hst : st.Valid) (h : Whole st ast o w) : w.Sits w.instructions := by
  obtain ⟨js, hjs, -⟩ := w.extends (h.occurs.valid hst)
  have hcode := h.code_eq
  refine ⟨[], js, [], ?_, hjs, ?_, by simp⟩
  · rw [Site.instructions, hjs.instructions, hcode]
    simp
  · rw [hcode]
    rfl

end

/-- What a name is resolved to: a variable of the current function, or what stands in the root. -/
theorem resolve_found {st st₁ : CompilerState} {name : String} {span : Span} {s : Symbol}
    (h : (resolve name span).run st = .ok (s, st₁)) (hst : st.Valid) :
    (s.IsVariable ∧ st₁.scopes.current.symbols[name]? = some s) ∨
      ((s.storage = .globalSlot ∨ s.storage = .builtin) ∧
        st₁.scopes.root.symbols[name]? = some s) := by
  obtain ⟨scopes, hresolve, rfl⟩ := withScopes_ok.mp h
  obtain ⟨hsound, -, hfound⟩ := Scopes.resolve_spec hst.sound hresolve
  rcases hfound with hvariable | ⟨hroot, -⟩
  · exact .inl hvariable
  · refine .inr ⟨?_, hroot⟩
    rcases hsound.isRoot.storage hroot with ⟨hs, -⟩ | ⟨hs, -⟩
    · exact .inl hs
    · exact .inr hs

/-! ### Compiled programs -/

section

variable {st : CompilerState} {ast : Ast} {p : Program} {last : CompilerState}

/-- The site of the whole program. -/
theorem exists_program (hst : st.Ready) (hcompile : compileFrom st ast = .ok (p, last)) :
    ∃ program, Whole st ast none program ∧ program.stateAfter = last ∧
      p = ⟨program.codeAfter.assemble, last.constants⟩ := by
  obtain ⟨code, hrun, -, -, -, hp⟩ := compileFrom_ok hcompile hst.valid.sound hst.outer
  exact ⟨⟨.program ast.statements, {}, st, code, last, hrun⟩, .program rfl rfl rfl, rfl, hp⟩

/-- Every piece of a tree that is compiled occurs. -/
theorem exists_occurs (hcompile : compileFrom {} ast = .ok (p, last)) {t : Piece}
    (h : Relation.ReflTransGen Piece.Child (.program ast.statements) t) :
    ∃ o s, Occurs {} ast o s ∧ s.piece = t := by
  induction h with
  | refl =>
    obtain ⟨w, hwhole, -⟩ := exists_program .init hcompile
    cases hwhole with
    | program hpiece hcode hstate => exact ⟨none, w, .program hpiece hcode hstate, hpiece⟩
  | tail _ hchild ih =>
    obtain ⟨o, s, hoccurs, rfl⟩ := ih
    exact hoccurs.exists_of_child hchild

theorem ready_of_compile (hcompile : compileFrom {} ast = .ok (p, last)) : last.Ready :=
  (CompilerState.Ready.init.compile hcompile).1

theorem root_of_compile (hst : st.Ready) (hcompile : compileFrom st ast = .ok (p, last)) :
    last.scopes.root = last.scopes.current := by
  rw [Scopes.root, (hst.compile hcompile).1.outer]
  rfl

theorem constants_of_compile (hst : st.Ready) (hcompile : compileFrom st ast = .ok (p, last)) :
    p.constants = last.constants := by
  obtain ⟨program, -, -, hp⟩ := exists_program hst hcompile
  rw [hp]

variable {o : Option Nat} {j : Nat} {s w body : Site}

/-- What is declared at the root and what is in the pool after a piece is still there when the
program is complete. -/
theorem Occurs.after (hst : st.Ready) (hcompile : compileFrom st ast = .ok (p, last))
    (h : Occurs st ast o s) : After s.stateAfter last := by
  obtain ⟨program, hprogram, hlast, -⟩ := exists_program hst hcompile
  obtain ⟨program', hprogram', hinside⟩ := h.inside
  obtain rfl := hprogram.unique hst.valid hprogram'
  rw [← hlast]
  exact (hinside.after (hprogram.occurs.valid hst.valid)).2.2

/-- The main code ends with the table of all globals. -/
theorem Whole.stateAfter_eq (hcompile : compileFrom {} ast = .ok (p, last))
    (h : Whole {} ast none w) : w.stateAfter = last := by
  obtain ⟨program, hprogram, hlast, -⟩ := exists_program .init hcompile
  rw [h.unique CompilerState.valid_init hprogram, hlast]

/-- The function around a body is in the pool. -/
theorem Body.constant (hst : st.Ready) (hcompile : compileFrom st ast = .ok (p, last))
    (hs : Occurs st ast o s) (h : Body j s body) : ∃ name? params b span,
      s.piece = .expr (.function name? params b span) ∧
      (enterFunction name? params).run s.state = .ok ((), body.state) ∧
      p.constants[j]? = some (.function
        (functionCode name? params body.codeAfter body.stateAfter.scopes.current)) := by
  obtain ⟨name?, params, b, span, hpiece, henter, -, -, hlast, -⟩ := h.function
  refine ⟨name?, params, b, span, hpiece, henter, ?_⟩
  have hconstant : s.stateAfter.constants.toList[j]? = some (.function
      (functionCode name? params body.codeAfter body.stateAfter.scopes.current)) := by
    rw [hlast, ← h.sizes.1]
    simp
  obtain ⟨hlt, hj⟩ := List.getElem?_eq_some_iff.mp hconstant
  have hkept := List.prefix_iff_getElem?.mp (hs.after hst hcompile).constants j hlt
  rw [constants_of_compile hst hcompile, ← Array.getElem?_toList, hkept, hj]

/-- Inside a function all slots are locals. -/
theorem Whole.limits_locals (hst : st.Ready) (h : Whole st ast (some j) w) :
    w.stateAfter.limits.locals = w.stateAfter.scopes.current.definitions := by
  have hglobal : w.stateAfter.scopes.isGlobal = false := by
    rw [← (w.later (h.occurs.valid hst.valid)).isGlobal, h.occurs.isGlobal hst.valid hst.outer]
    rfl
  show (if w.stateAfter.scopes.isGlobal then 0 else _) = _
  rw [hglobal]
  rfl

/-- What a body refers to is within the limits of the operands. -/
theorem Body.narrow (hst : st.Ready) (hcompile : compileFrom st ast = .ok (p, last))
    (hs : Occurs st ast o s) (h : Body j s w) : w.stateAfter.limits.Narrow := by
  have hwhole : Whole st ast (some j) w := .body hs h
  obtain ⟨_, _, _, _, -, -, hlocals, hcaptures, -⟩ := h.function
  refine ⟨?_, ?_, ?_⟩
  · -- the globals known inside the function are among those known in the end
    obtain ⟨declared, hroot⟩ := (hwhole.occurs.after hst hcompile).root
    have hdefinitions := hroot.definitions
    have hlimit := (hst.compile hcompile).1.limit
    rw [root_of_compile hst hcompile] at hdefinitions
    show w.stateAfter.scopes.root.definitions ≤ _
    omega
  · rw [hwhole.limits_locals hst]
    exact hlocals
  · show w.stateAfter.scopes.current.captures.size ≤ _
    rw [Array.length_toList] at hcaptures
    omega

/-- The instructions of a whole site are those of its code. -/
theorem Whole.lists_of_ready (hst : st.Ready) (hcompile : compileFrom st ast = .ok (p, last))
    (h : Whole st ast o w) : ∃ f, p.codeOf? o = some f ∧ f.Lists w.instructions ∧
      f.locals = if o.isNone then 0 else w.stateAfter.scopes.current.definitions := by
  obtain ⟨count, hemitted, htargets⟩ := h.emitted hst.valid
  cases h with
  | program hpiece hcode hstate =>
    have hready := (hst.compile hcompile).1
    have hwhole : Whole st ast none w := .program hpiece hcode hstate
    obtain ⟨program, hprogram, hlast, hp⟩ := exists_program hst hcompile
    obtain rfl := hwhole.unique hst.valid hprogram
    refine ⟨_, rfl, ⟨Nat.le_refl _, ?_, htargets, last.limits, ?_, ?_, hemitted.balanced, ?_⟩, rfl⟩
    · rw [hp]
      exact Fragment.bytes_assemble _
    · rw [hready.limits_eq]
    · rw [hready.limits_eq]
      exact ⟨hready.limit, Nat.zero_le _, Nat.zero_le _⟩
    · rw [← hlast]
      exact hemitted.proper
  | @body o j s _ hoccurs hbody =>
    have hwhole : Whole st ast (some j) w := .body hoccurs hbody
    obtain ⟨name?, params, _, _, -, henter, hconstant⟩ := hbody.constant hst hcompile hoccurs
    -- the parameters are the first names that are declared
    have hparams : params.length ≤ w.stateAfter.scopes.current.definitions := by
      obtain ⟨t, ht, hentered⟩ := enterFunction_ok henter (hoccurs.valid hst.valid).sound
      have hle := (w.later (hwhole.occurs.valid hst.valid)).definitions_le
      rw [← hentered] at hle
      rw [← ht.definitions]
      exact hle
    exact ⟨_, Program.codeOf?_some.mpr hconstant, ⟨hparams, Fragment.bytes_assemble _, htargets,
      w.stateAfter.limits, hwhole.limits_locals hst, hbody.narrow hst hcompile hoccurs,
      hemitted.balanced, hemitted.proper⟩, rfl⟩

theorem Whole.lists (hcompile : compileFrom {} ast = .ok (p, last)) (h : Whole {} ast o w) :
    ∃ f, p.codeOf? o = some f ∧ f.Lists w.instructions ∧
      f.locals = if o.isNone then 0 else w.stateAfter.scopes.current.definitions :=
  h.lists_of_ready .init hcompile

/-- What an instruction of a compiled code refers to is there in the end. -/
theorem Whole.proper (h : Whole {} ast o w) {k : Nat} {i : Located Instruction}
    (hi : w.instructions[k]? = some i) : i.value.Proper w.stateAfter.limits := by
  obtain ⟨count, hemitted, -⟩ := h.emitted CompilerState.valid_init
  exact hemitted.proper i (List.mem_of_getElem? hi)

/-- The code of a whole site is assembled from its instructions. -/
theorem Whole.code_of (hcompile : compileFrom {} ast = .ok (p, last)) (h : Whole {} ast o w)
    {f : FunctionCode} (hf : p.codeOf? o = some f) : f.code = w.codeAfter.assemble := by
  cases h with
  | program hpiece hcode hstate =>
    obtain ⟨program, hprogram, -, hp⟩ := exists_program .init hcompile
    obtain rfl := (Whole.program hpiece hcode hstate).unique CompilerState.valid_init hprogram
    cases hf
    rw [hp]
  | body hoccurs hbody =>
    obtain ⟨_, _, _, _, -, -, hconstant⟩ := hbody.constant .init hcompile hoccurs
    rw [Program.codeOf?_some, hconstant] at hf
    cases hf
    rfl

/-- The code of a whole site, cut at one of its instructions. -/
theorem Whole.extends (h : Whole {} ast o w) {k : Nat} {i : Located Instruction}
    (hi : w.instructions[k]? = some i) :
    w.code.stop = 0 ∧
      w.code.Extends (w.instructions.take k ++ i :: w.instructions.drop (k + 1)) w.codeAfter := by
  obtain ⟨js, hjs, -⟩ := w.extends (h.occurs.valid CompilerState.valid_init)
  obtain ⟨hk, rfl⟩ := List.getElem?_eq_some_iff.mp hi
  have heq : w.instructions = js := by
    rw [Site.instructions, hjs.instructions, h.code_eq]
    simp
  rw [List.getElem_cons_drop, List.take_append_drop, heq]
  exact ⟨by rw [h.code_eq]; rfl, hjs⟩

/-- Every instruction of a code comes from one piece itself. -/
theorem Whole.exists_owns (h : Whole {} ast o w) {k : Nat} {i : Located Instruction}
    (hi : w.instructions[k]? = some i) :
    ∃ s, Within w s ∧ s.Owns (offsetAt w.instructions k) ∧ s.piece.Yields i := by
  have hvalid := h.occurs.valid CompilerState.valid_init
  obtain ⟨hstop, hextends⟩ := h.extends hi
  obtain ⟨s, hwithin, hown⟩ := w.exists_own hvalid hextends rfl
  rw [hstop, Nat.zero_add] at hown
  exact ⟨s, hwithin, hown.owns (Within.later hwithin hvalid).1, hown.yields⟩

/-! ### Stores and closures -/

/-- Every instruction of a code that stores a value or makes a closure is the last one of a
declaration, an assignment or a function. -/
theorem Whole.ends (h : Whole {} ast o w) {k : Nat} {i : Located Instruction}
    (hi : w.instructions[k]? = some i) (hretains : i.value.opcode.Retains) :
    w.Ends i (offsetAt w.instructions (k + 1)) := by
  obtain ⟨hstop, hextends⟩ := h.extends hi
  obtain ⟨hk, rfl⟩ := List.getElem?_eq_some_iff.mp hi
  have hends := w.ends_of_retains (h.occurs.valid CompilerState.valid_init) hextends rfl hretains
  rwa [hstop, Nat.zero_add, List.take_append_getElem hk] at hends

/-- The table that has the slots of a storage, when the program is complete. -/
def Site.table (w : Site) (root : ScopeTable) : Storage → ScopeTable
  | .globalSlot => root
  | _ => w.stateAfter.scopes.current

theorem Whole.sound_table (hcompile : compileFrom {} ast = .ok (p, last)) (h : Whole {} ast o w)
    (storage : Storage) : (w.table last.scopes.root storage).Sound := by
  have hvalid := Piece.valid w.runs (h.occurs.valid CompilerState.valid_init)
  cases storage with
  | globalSlot => exact (ready_of_compile hcompile).valid.sound.root_sound
  | localSlot | captured | builtin | self => exact hvalid.sound.sound

/-- What a declaration enters is still there when the program is complete. -/
theorem Whole.declared (hcompile : compileFrom {} ast = .ok (p, last)) (h : Whole {} ast o w)
    (hs : Within w s) {mutability : Mutability} {name : String} {value : Expr} {span : Span}
    (hpiece : s.piece = .stmt (.declare mutability name value span)) :
    (w.table last.scopes.root s.state.scopes.slotStorage).symbols[name]? =
      some ⟨name, s.state.scopes.slotStorage, s.state.scopes.current.definitions, mutability,
        recordedArity mutability value⟩ := by
  obtain ⟨symbol, v, hdeclare, hpart, -⟩ := s.declare_ok hpiece
  have hvalid := h.occurs.valid CompilerState.valid_init
  obtain ⟨hvalid', -, hend⟩ := Within.later hs hvalid
  obtain ⟨hvalidv, -, hendv⟩ := hpart.later hvalid'
  have hlater : Later v.state w.stateAfter := ((v.later hvalidv).trans hendv).trans hend
  obtain ⟨hsymbol, t, hdeclared, hstate⟩ := declareName_ok hdeclare
  subst hsymbol
  have hentry : v.state.scopes.current.symbols[name]? = some ⟨name, s.state.scopes.slotStorage,
      s.state.scopes.current.definitions, mutability, recordedArity mutability value⟩ := by
    rw [hstate]
    show t.symbols[name]? = _
    rw [hdeclared.symbols, if_pos rfl]
  have hself : s.state.scopes.slotStorage ≠ .self := by
    rcases s.state.scopes.slotStorage_cases with hstorage | hstorage <;> simp [hstorage]
  have hentry' := hlater.entry hentry hself
  by_cases hglobal : s.state.scopes.isGlobal = true
  · -- the current table is the root
    have hnone : o.isNone = true := by
      rw [← (h.occurs.of_within hs).isGlobal CompilerState.valid_init rfl, hglobal]
    obtain rfl : o = none := by simpa using hnone
    have hstorage : s.state.scopes.slotStorage = .globalSlot := by
      rw [Scopes.slotStorage, if_pos hglobal]
    rw [hstorage] at hentry' ⊢
    show last.scopes.root.symbols[name]? = _
    rw [root_of_compile .init hcompile, ← h.stateAfter_eq hcompile]
    exact hentry'
  · have hstorage : s.state.scopes.slotStorage = .localSlot := by
      rw [Scopes.slotStorage, if_neg hglobal]
    rw [hstorage] at hentry' ⊢
    exact hentry'

/-- What is assigned is still there when the program is complete. -/
theorem Whole.assigned (hcompile : compileFrom {} ast = .ok (p, last)) (h : Whole {} ast o w)
    (hs : Within w s) {name : String} {value : Expr} {span : Span}
    (hpiece : s.piece = .stmt (.assign name value span)) :
    ∃ (symbol : Symbol) (v : Site),
      v.codeAfter.Extends [⟨assignInstruction symbol, span⟩] s.codeAfter ∧
      symbol.IsSlot ∧ symbol.mutability ≠ .constant ∧
      (w.table last.scopes.root symbol.storage).symbols[name]? = some symbol := by
  obtain ⟨symbol, v, htarget, hpart, hown⟩ := s.assign_ok hpiece
  obtain ⟨hresolve, hslot, hmutable⟩ := resolveTarget_ok htarget
  refine ⟨symbol, v, hown, hslot, hmutable, ?_⟩
  have hvalid := h.occurs.valid CompilerState.valid_init
  obtain ⟨hvalid', -, hend⟩ := Within.later hs hvalid
  obtain ⟨hvalidv, -, hendv⟩ := hpart.later hvalid'
  have hlater : Later v.state w.stateAfter := ((v.later hvalidv).trans hendv).trans hend
  -- a local is in the table of the function itself, a global in that of the program
  rcases resolve_found hresolve hvalid' with ⟨hvariable, hentry⟩ | ⟨hglobal, hentry⟩
  · have hlocal : symbol.storage = .localSlot := by
      rcases hslot with hstorage | hstorage
      · simp [Symbol.IsVariable, hstorage] at hvariable
      · exact hstorage
    rw [hlocal]
    exact hlater.entry hentry (by rw [hlocal]; decide)
  · have hstorage : symbol.storage = .globalSlot := by
      rcases hslot with hstorage | hstorage
      · exact hstorage
      · simp [hstorage] at hglobal
    rw [hstorage]
    exact (hlater.toAfter.trans (h.occurs.after .init hcompile)).entry hvalidv.sound hentry

/-- An instruction of a part that stores in a slot is that of the declaration which gave the slot
away, or of an assignment to a name that may be assigned. -/
theorem Whole.targets_cases (hcompile : compileFrom {} ast = .ok (p, last)) (h : Whole {} ast o w)
    {part : Site} (hpart : Within w part) {n stop : Nat} {i : Located Instruction}
    {storage : Storage} (hends : part.Ends i stop) (htargets : i.value.Targets storage n) :
    (∃ s mutability name value span, Within part s ∧
      s.piece = .stmt (.declare mutability name value span) ∧ s.codeAfter.stop = stop ∧
      s.state.scopes.slotStorage = storage ∧ s.state.scopes.current.definitions = n ∧
      i.value = ⟨if storage = .globalSlot then .setGlobal else .setLocal, [n]⟩) ∨
    ∃ (name : String) (symbol : Symbol),
      (w.table last.scopes.root storage).symbols[name]? = some symbol ∧
      symbol.storage = storage ∧ symbol.index = n ∧ symbol.mutability ≠ .constant := by
  obtain ⟨s, hs, hretains, hstop, is, his⟩ := hends
  have hlast : ∀ {code : Fragment} {j : Located Instruction}, code.Extends [j] s.codeAfter →
      j = i := by
    intro code j hextends
    rw [hextends.instructions] at his
    exact (List.append_inj' his rfl).2 |> List.cons.inj |>.1
  rcases hretains with ⟨mutability, name, value, span, hpiece⟩ | ⟨name, value, span, hpiece⟩ |
    ⟨name?, params, body, span, hpiece⟩
  · left
    obtain ⟨symbol, v, hdeclare, -, -, -, hown⟩ := s.declare_ok hpiece
    obtain ⟨hsymbol, -⟩ := declareName_ok hdeclare
    obtain rfl := hlast hown
    obtain ⟨hoperands, hop⟩ := htargets
    have hn : s.state.scopes.current.definitions = n := by
      rw [hsymbol] at hoperands
      simpa [storeInstruction] using hoperands
    have hstorage : s.state.scopes.slotStorage = storage := by
      rw [hsymbol] at hop
      rcases s.state.scopes.slotStorage_cases with heq | heq <;>
      · rcases hop with ⟨rfl, hop⟩ | ⟨rfl, hop⟩ <;> simp [storeInstruction, heq] at hop ⊢
    refine ⟨s, mutability, name, value, span, hs, hpiece, hstop, hstorage, hn, ?_⟩
    rw [hsymbol, storeInstruction, ← hstorage, hn]
  · right
    obtain ⟨symbol, v, hown, hslot, hmutable, hentry⟩ :=
      h.assigned hcompile (hpart.trans hs) hpiece
    obtain rfl := hlast hown
    obtain ⟨hoperands, hop⟩ := htargets
    have hstorage : symbol.storage = storage := by
      rcases hslot with heq | heq <;>
      · rcases hop with ⟨rfl, hop⟩ | ⟨rfl, hop⟩ <;> simp [assignInstruction, heq] at hop ⊢
    refine ⟨name, symbol, by rw [← hstorage]; exact hentry, hstorage, ?_, hmutable⟩
    simpa [assignInstruction] using hoperands
  · -- the last instruction of a function makes a closure
    obtain ⟨j, body', hbody⟩ := Body.exists_of_function hpiece
    obtain ⟨_, _, _, _, -, -, -, -, -, hextends⟩ := hbody.function
    rw [hextends.instructions, ← List.append_assoc] at his
    obtain rfl := (List.cons.inj (List.append_inj' his rfl).2).1
    obtain ⟨-, ⟨-, hop | hop⟩ | ⟨-, hop | hop⟩⟩ := htargets <;> cases hop

theorem Whole.store_cases (hcompile : compileFrom {} ast = .ok (p, last)) (h : Whole {} ast o w)
    {k n : Nat} {i : Located Instruction} {storage : Storage} (hi : w.instructions[k]? = some i)
    (htargets : i.value.Targets storage n) :
    (∃ s mutability name value span, Within w s ∧
      s.piece = .stmt (.declare mutability name value span) ∧
      s.codeAfter.stop = offsetAt w.instructions (k + 1) ∧
      s.state.scopes.slotStorage = storage ∧ s.state.scopes.current.definitions = n ∧
      i.value = ⟨if storage = .globalSlot then .setGlobal else .setLocal, [n]⟩) ∨
    ∃ (name : String) (symbol : Symbol),
      (w.table last.scopes.root storage).symbols[name]? = some symbol ∧
      symbol.storage = storage ∧ symbol.index = n ∧ symbol.mutability ≠ .constant :=
  h.targets_cases hcompile .refl (h.ends hi htargets.retains) htargets

/-- An instruction that makes a closure is that of the function around the body from which the
constant was made. -/
theorem Whole.closure_cases (h : Whole {} ast o w) {k count : Nat} {span : Span}
    (hi : w.instructions[k]? = some ⟨⟨.closure, [j, count]⟩, span⟩) :
    ∃ s body, Within w s ∧ Body j s body ∧ Whole {} ast (some j) body ∧
      s.codeAfter.stop = offsetAt w.instructions (k + 1) ∧
      body.stateAfter.scopes.current.captures.toList.length = count := by
  obtain ⟨s, hs, hretains, hstop, is, his⟩ := h.ends hi (by simp [Opcode.Retains])
  -- a piece that retains something ends in one such instruction, and here this is the closure
  have hlast : ∀ {code : Fragment} {j' : Located Instruction}, code.Extends [j'] s.codeAfter →
      j' = ⟨⟨.closure, [j, count]⟩, span⟩ := by
    intro code j' hextends
    rw [hextends.instructions] at his
    exact (List.append_inj' his rfl).2 |> List.cons.inj |>.1
  rcases hretains with ⟨mutability, name, value, span', hpiece⟩ | ⟨name, value, span', hpiece⟩ |
    ⟨name?, params, b, span', hpiece⟩
  · obtain ⟨symbol, v, -, -, -, -, hown⟩ := s.declare_ok hpiece
    have hop := congrArg (fun i => i.value.opcode) (hlast hown)
    simp only [storeInstruction] at hop
    split at hop <;> cases hop
  · obtain ⟨symbol, v, -, -, hown⟩ := s.assign_ok hpiece
    have hop := congrArg (fun i => i.value.opcode) (hlast hown)
    simp only [assignInstruction] at hop
    split at hop <;> cases hop
  · obtain ⟨j', body, hbody⟩ := Body.exists_of_function hpiece
    obtain ⟨_, _, _, _, -, -, -, -, -, hextends⟩ := hbody.function
    rw [hextends.instructions, ← List.append_assoc] at his
    obtain heq := (List.cons.inj (List.append_inj' his rfl).2).1
    obtain ⟨rfl, hcount⟩ : j' = j ∧ _ = count := by simpa using congrArg (·.value.operands) heq
    exact ⟨s, body, hs, hbody, .body (h.occurs.of_within hs) hbody, hstop, hcount⟩

/-- The functions in a function are before it in the pool. -/
theorem Whole.lt_of_closure {j' : Nat} (h : Whole {} ast (some j') w) {k count : Nat} {span : Span}
    (hi : w.instructions[k]? = some ⟨⟨.closure, [j, count]⟩, span⟩) : j < j' := by
  obtain ⟨s, body, hs, hbody, -⟩ := h.closure_cases hi
  have hend := (Within.later hs (h.occurs.valid CompilerState.valid_init)).2.2
  have hsize := hend.size_le
  have := hbody.sizes.2
  cases h with
  | body _ hbody' =>
    have := hbody'.sizes.1
    omega

end

end Compile

end Bytescript
