/-
Where the pieces of a program stand.

The compiler comes to every piece of a tree once, with some code before it and in some state: this
is a `Site`. A site is a `Part` of another if the compiler comes to it on the way through that one,
in the same function, and the `Body` of a function has code of its own; `Occurs` are the sites of a
program, each with the code in which it stands.

Main statements:

* `Within.sits` — the code of a part stands in the code of the whole, and no jump leads into it from
  before;
* `Site.exists_own` — every instruction comes from one piece itself, and not from its parts;
* `Site.ends_of_retains` — every instruction that stores a value or makes a closure is the last one
  of a declaration, an assignment or a function;
* `Within.eq_of_definitions`, `Whole.unique` — the parts of a site are compiled one after another,
  so that a declaration is known by its slot, and a function by its index in the pool.
-/
import Mathlib.Logic.Relation
import Bytescript.Proofs.Parts

namespace Bytescript

namespace Compile

/-- A piece to which the compiler comes with the code before it and a state, and what it leaves. -/
@[ext]
structure Site where
  piece : Piece
  code : Fragment
  state : CompilerState
  codeAfter : Fragment
  stateAfter : CompilerState
  runs : (piece.compile code).run state = .ok (codeAfter, stateAfter)

/-- What is left is determined. -/
theorem Site.eq_of {a b : Site} (hpiece : a.piece = b.piece) (hcode : a.code = b.code)
    (hstate : a.state = b.state) : a = b := by
  have hruns := a.runs
  rw [hpiece, hcode, hstate, b.runs] at hruns
  obtain ⟨hcode', hstate'⟩ := Prod.mk.inj (Except.ok.inj hruns)
  exact Site.ext hpiece hcode hstate hcode'.symm hstate'.symm

/-- The piece of `s` is a conditional with the condition `a` and the arms `b` and `c`. -/
structure Arms (s a b c : Site) : Prop where
  pieces : ∃ condition thenBranch elseBranch span,
    s.piece = .expr (.conditional condition thenBranch elseBranch span) ∧
    a.piece = .expr condition ∧ b.piece = .block .arm thenBranch ∧
    c.piece = .alternative elseBranch span
  code_a : a.code = s.code
  state_a : a.state = s.state
  code_b : b.code = .startingAt (a.codeAfter.stop + Opcode.jumpNotTruthy.width)
  state_b : b.state = a.stateAfter
  code_c : c.code = .startingAt (b.codeAfter.stop + Opcode.jump.width)
  state_c : c.state = b.stateAfter

/-- On the way through `s` the compiler comes to `part`, in the same function. -/
inductive Part (s part : Site) : Prop where
  | inner {before after : List Piece} {st : CompilerState} :
      s.piece.prepare.run s.state = .ok ((), st) →
      s.piece.parts = before ++ part.piece :: after →
      (Piece.compileAll before s.code).run st = .ok (part.code, part.state) → Part s part
  | arm {a b c : Site} : Arms s a b c → part ∈ [a, b, c] → Part s part

/-- The piece of `s` is a function, which becomes the constant `j`, and `body` is its body. -/
inductive Body (j : Nat) (s body : Site) : Prop where
  | mk {name? : Option String} {params : List Param} {b : Block} {span : Span} :
      s.piece = .expr (.function name? params b span) →
      (enterFunction name? params).run s.state = .ok ((), body.state) →
      body.piece = .block .body b → body.code = {} → body.stateAfter.constants.size = j →
      Body j s body

/-- The sites of a program that is compiled from the state `st`. They stand in the main code, or in
the code of a function of the pool, which is given by its index. -/
inductive Occurs (st : CompilerState) (ast : Ast) : Option Nat → Site → Prop where
  | program {s : Site} : s.piece = .program ast.statements → s.code = {} → s.state = st →
      Occurs st ast none s
  | part {o : Option Nat} {s part : Site} : Occurs st ast o s → Part s part →
      Occurs st ast o part
  | body {o : Option Nat} {j : Nat} {s body : Site} : Occurs st ast o s → Body j s body →
      Occurs st ast (some j) body

/-! ### Later states -/

/-- The state `b` comes after `a`, perhaps in another function: globals were declared, and constants
were added. -/
structure After (a b : CompilerState) : Prop where
  root : ∃ declared, a.scopes.root.Grows declared (fun _ => True) b.scopes.root
  constants : a.constants.toList <+: b.constants.toList

/-- The state `b` comes after `a`, in the same function: names were declared or captured there. -/
structure Later (a b : CompilerState) : Prop extends After a b where
  current : ∃ declared, a.scopes.current.Grows declared (fun _ => True) b.scopes.current
  isGlobal : a.scopes.isGlobal = b.scopes.isGlobal

section

variable {a b c : CompilerState}

protected theorem After.refl (a : CompilerState) : After a a :=
  ⟨⟨[], .refl _ _⟩, List.prefix_rfl⟩

protected theorem After.trans (h : After a b) (h' : After b c) : After a c := by
  obtain ⟨declared, hroot⟩ := h.root
  obtain ⟨declared', hroot'⟩ := h'.root
  exact ⟨⟨_, (hroot.trans hroot').mono (.refl _) fun _ _ _ => trivial⟩,
    h.constants.trans h'.constants⟩

theorem After.size_le (h : After a b) : a.constants.size ≤ b.constants.size := by
  have := h.constants.length_le
  simpa using this

/-- Globals stay as they were declared. -/
theorem After.entry (h : After a b) (hsound : a.scopes.Sound) {name : String} {s : Symbol}
    (hs : a.scopes.root.symbols[name]? = some s) : b.scopes.root.symbols[name]? = some s := by
  obtain ⟨declared, hroot⟩ := h.root
  refine hroot.entry hs fun hself => ?_
  rcases hsound.isRoot.storage hs with ⟨hstorage, -⟩ | ⟨hstorage, -⟩ <;>
  · rw [hself] at hstorage
    cases hstorage

protected theorem Later.refl (a : CompilerState) : Later a a :=
  ⟨.refl a, ⟨[], .refl _ _⟩, rfl⟩

protected theorem Later.trans (h : Later a b) (h' : Later b c) : Later a c := by
  obtain ⟨declared, hcurrent⟩ := h.current
  obtain ⟨declared', hcurrent'⟩ := h'.current
  exact ⟨h.toAfter.trans h'.toAfter,
    ⟨_, (hcurrent.trans hcurrent').mono (.refl _) fun _ _ _ => trivial⟩,
    h.isGlobal.trans h'.isGlobal⟩

theorem Later.definitions_le (h : Later a b) :
    a.scopes.current.definitions ≤ b.scopes.current.definitions := by
  obtain ⟨declared, hgrows⟩ := h.current
  have := hgrows.definitions
  omega

/-- Names stay as they were declared or captured, unless it is the function's own name. -/
theorem Later.entry (h : Later a b) {name : String} {s : Symbol}
    (hs : a.scopes.current.symbols[name]? = some s) (hself : s.storage ≠ .self) :
    b.scopes.current.symbols[name]? = some s := by
  obtain ⟨declared, hgrows⟩ := h.current
  exact hgrows.entry hs hself

theorem Later.of_advances {declared mentioned : List String} (h : Advances declared mentioned a b) :
    Later a b := by
  refine ⟨⟨h.scopes.root, h.constants⟩,
    ⟨_, h.scopes.current.mono (.refl _) fun _ _ _ => trivial⟩, ?_⟩
  have hfunction : (!a.scopes.isGlobal) = !b.scopes.isGlobal := h.limits.inFunction
  simpa using hfunction

end

theorem Piece.adds (t : Piece) : ∃ declared mentioned, Adds declared mentioned t.compile := by
  cases t with
  | program statements => exact ⟨_, _, adds_stmts statements⟩
  | block purpose b => exact ⟨_, _, adds_block purpose b⟩
  | alternative arm span => exact ⟨_, _, adds_alternative arm span⟩
  | stmt s => exact ⟨_, _, adds_stmt s⟩
  | expr e => exact ⟨_, _, adds_expr e⟩

variable {st st₁ : CompilerState} {code code₁ : Fragment}

theorem Piece.later {t : Piece} (hrun : (t.compile code).run st = .ok (code₁, st₁))
    (hst : st.Valid) : Later st st₁ := by
  obtain ⟨declared, mentioned, hadds⟩ := t.adds
  exact .of_advances (hadds.advances hrun hst.sound).1

theorem later_compileAll {pieces : List Piece}
    (hrun : (Piece.compileAll pieces code).run st = .ok (code₁, st₁)) (hst : st.Valid) :
    Later st st₁ ∧ st₁.Valid := by
  induction pieces generalizing code st with
  | nil =>
    obtain ⟨-, rfl⟩ := pure_ok.mp hrun
    exact ⟨.refl _, hst⟩
  | cons t rest ih =>
    obtain ⟨code', st', hfirst, hrest⟩ := compileAll_cons_ok.mp hrun
    obtain ⟨hlater, hvalid⟩ := ih hrest (t.valid hfirst hst)
    exact ⟨(t.later hfirst hst).trans hlater, hvalid⟩

theorem compileAll_append_ok {before after : List Piece} :
    (Piece.compileAll (before ++ after) code).run st = .ok (code₁, st₁) ↔
      ∃ code' st', (Piece.compileAll before code).run st = .ok (code', st') ∧
        (Piece.compileAll after code').run st' = .ok (code₁, st₁) := by
  induction before generalizing code st with
  | nil =>
    constructor
    · exact fun h => ⟨code, st, rfl, h⟩
    · rintro ⟨_, _, hnil, h⟩
      obtain ⟨rfl, rfl⟩ := pure_ok.mp hnil
      exact h
  | cons t before ih =>
    rw [List.cons_append]
    simp only [compileAll_cons_ok, ih]
    constructor
    · rintro ⟨c, s, hfirst, code', st', hbefore, hafter⟩
      exact ⟨code', st', ⟨c, s, hfirst, hbefore⟩, hafter⟩
    · rintro ⟨code', st', ⟨c, s, hfirst, hbefore⟩, hafter⟩
      exact ⟨c, s, hfirst, code', st', hbefore, hafter⟩

theorem later_declareName {mutability : Mutability} {name : String} {value : Expr} {span : Span}
    {s : Symbol} (h : (declareName mutability name value span).run st = .ok (s, st₁)) :
    Later st st₁ := by
  obtain ⟨-, t, hdeclared, rfl⟩ := declareName_ok h
  have hgrows := hdeclared.grows fun _ => True
  exact ⟨⟨(Scopes.Captures.refl (fun _ => True) _).getLastD ⟨_, hgrows⟩, List.prefix_rfl⟩,
    ⟨_, hgrows⟩, rfl⟩

theorem Piece.later_prepare {t : Piece} (hrun : t.prepare.run st = .ok ((), st₁))
    (hst : st.Valid) : Later st st₁ := by
  rw [prepare.eq_def] at hrun
  split at hrun
  · obtain ⟨s, hdeclare⟩ := discard_ok.mp hrun
    exact later_declareName hdeclare
  · obtain ⟨s, htarget⟩ := discard_ok.mp hrun
    exact .of_advances (advances_resolve (resolveTarget_ok htarget).1 hst.sound)
  · obtain ⟨-, rfl⟩ := pure_ok.mp hrun
    exact .refl _

/-- What comes after the parts of a piece leads to a later state. -/
theorem Finishes.later {t : Piece} {st' : CompilerState} {own : List (Located Instruction)}
    (h : Finishes t st st' own st₁) (hst' : st'.Valid) (hparts : t.parts ≠ []) :
    Later st' st₁ := by
  cases h with
  | plain | declare | assign => exact .refl _
  | constant _ hadd => exact .of_advances (advances_addConstant hadd hst'.sound)
  | identifier hresolve => exact .of_advances (advances_resolve hresolve hst'.sound)
  | function => exact absurd rfl hparts

namespace Site

theorem later (s : Site) (hs : s.state.Valid) : Later s.state s.stateAfter :=
  Piece.later s.runs hs

/-- How the compiler goes through a site with a part among others: what it does before the part, the
part, and the rest. -/
theorem exists_part {s : Site} {before after : List Piece} {t : Piece}
    (hparts : s.piece.parts = before ++ t :: after) :
    ∃ (st₀ : CompilerState) (part : Site) (code' : Fragment) (st' : CompilerState)
      (own : List (Located Instruction)), s.piece.prepare.run s.state = .ok ((), st₀) ∧
      part.piece = t ∧ (Piece.compileAll before s.code).run st₀ = .ok (part.code, part.state) ∧
      (Piece.compileAll after part.codeAfter).run part.stateAfter = .ok (code', st') ∧
      Finishes s.piece s.state st' own s.stateAfter ∧ code'.Extends own s.codeAfter := by
  have hne : ¬ s.piece.IsConditional := by
    rintro ⟨_, _, _, _, hpiece⟩
    rw [hpiece, Piece.parts] at hparts
    · simp at hparts
    all_goals simp
  obtain ⟨st₀, code', st', own, hprepare, hrun, hfinishes, hown⟩ := done hne s.runs
  rw [hparts] at hrun
  obtain ⟨c, st, hbefore, hrun⟩ := compileAll_append_ok.mp hrun
  obtain ⟨c', st₁, hpart, hafter⟩ := compileAll_cons_ok.mp hrun
  exact ⟨st₀, ⟨t, c, st, c', st₁, hpart⟩, code', st', own, hprepare, rfl, hbefore, hafter,
    hfinishes, hown⟩

theorem inner_ok {s part : Site} {before after : List Piece} {st₀ : CompilerState}
    (hs : s.state.Valid) (hprepare : s.piece.prepare.run s.state = .ok ((), st₀))
    (hparts : s.piece.parts = before ++ part.piece :: after)
    (hbefore : (Piece.compileAll before s.code).run st₀ = .ok (part.code, part.state)) :
    part.state.Valid ∧ Later s.state part.state ∧ Later part.stateAfter s.stateAfter ∧
      ∃ code' st' own, (Piece.compileAll after part.codeAfter).run part.stateAfter =
        .ok (code', st') ∧ code'.Extends own s.codeAfter := by
  obtain ⟨st₀', part', code', st', own, hprepare', hpiece, hbefore', hafter, hfinishes, hown⟩ :=
    s.exists_part hparts
  obtain rfl : st₀ = st₀' := by simpa [hprepare] using hprepare'
  obtain ⟨hcode, hstate⟩ : part.code = part'.code ∧ part.state = part'.state := by
    simpa [hbefore] using hbefore'
  obtain rfl : part' = part := Site.eq_of hpiece hcode.symm hstate.symm
  obtain ⟨hlater, hvalid⟩ := later_compileAll hbefore (Piece.valid_prepare hprepare hs)
  obtain ⟨hlater', hvalid'⟩ := later_compileAll hafter (Piece.valid part'.runs hvalid)
  refine ⟨hvalid, (Piece.later_prepare hprepare hs).trans hlater, hlater'.trans ?_, code', st', own,
    hafter, hown⟩
  exact hfinishes.later hvalid' (by simp [hparts])

end Site

/-- The sites of a conditional. -/
theorem Site.exists_arms {s : Site} (h : s.piece.IsConditional) : ∃ a b c, Arms s a b c := by
  obtain ⟨condition, thenBranch, elseBranch, span, hpiece⟩ := h
  have hruns := s.runs
  rw [hpiece] at hruns
  obtain ⟨c₁, s₁, c₂, s₂, c₃, hcondition, hthen, helse, -⟩ := conditional_ok hruns
  refine ⟨⟨.expr condition, s.code, s.state, c₁, s₁, hcondition⟩,
    ⟨.block .arm thenBranch, _, s₁, c₂, s₂, hthen⟩,
    ⟨.alternative elseBranch span, _, s₂, c₃, _, helse⟩, ?_⟩
  exact ⟨⟨_, _, _, _, hpiece, rfl, rfl, rfl⟩, rfl, rfl, rfl, rfl, rfl, rfl⟩

namespace Arms

variable {s a b c : Site}

theorem unique {a' b' c' : Site} (h : Arms s a b c) (h' : Arms s a' b' c') :
    a = a' ∧ b = b' ∧ c = c' := by
  obtain ⟨_, _, _, _, hs, ha, hb, hc⟩ := h.pieces
  obtain ⟨_, _, _, _, hs', ha', hb', hc'⟩ := h'.pieces
  rw [hs] at hs'
  cases hs'
  obtain rfl : a = a' := Site.eq_of (ha.trans ha'.symm) (h.code_a.trans h'.code_a.symm)
    (h.state_a.trans h'.state_a.symm)
  obtain rfl : b = b' := Site.eq_of (hb.trans hb'.symm) (h.code_b.trans h'.code_b.symm)
    (h.state_b.trans h'.state_b.symm)
  exact ⟨rfl, rfl, Site.eq_of (hc.trans hc'.symm) (h.code_c.trans h'.code_c.symm)
    (h.state_c.trans h'.state_c.symm)⟩

/-- The arms are joined to the code of the conditional. -/
theorem joined (h : Arms s a b c) :
    s.codeAfter = a.codeAfter.joinArms s.piece.span b.codeAfter c.codeAfter ∧
      s.stateAfter = c.stateAfter := by
  obtain ⟨condition, thenBranch, elseBranch, span, hs, ha, hb, hc⟩ := h.pieces
  have hruns := s.runs
  rw [hs] at hruns
  -- each arm begins where the one before ends, so their runs are those of the conditional
  obtain ⟨c₁, s₁, c₂, s₂, c₃, hcondition, hthen, helse, hcode⟩ := conditional_ok hruns
  have ha := a.runs
  rw [‹a.piece = _›, h.code_a, h.state_a] at ha
  obtain ⟨rfl, rfl⟩ : a.codeAfter = c₁ ∧ a.stateAfter = s₁ := by
    simpa [Piece.compile, hcondition, eq_comm] using ha
  have hb := b.runs
  rw [‹b.piece = _›, h.code_b, h.state_b] at hb
  obtain ⟨rfl, rfl⟩ : b.codeAfter = c₂ ∧ b.stateAfter = s₂ := by
    simpa [Piece.compile, hthen, eq_comm] using hb
  have hc := c.runs
  rw [‹c.piece = _›, h.code_c, h.state_c] at hc
  obtain ⟨rfl, hstate⟩ : c.codeAfter = c₃ ∧ c.stateAfter = s.stateAfter := by
    simpa [Piece.compile, helse, eq_comm] using hc
  rw [hs]
  exact ⟨hcode, hstate.symm⟩

theorem valid (h : Arms s a b c) (hs : s.state.Valid) :
    a.state.Valid ∧ b.state.Valid ∧ c.state.Valid := by
  have ha : a.state.Valid := h.state_a ▸ hs
  have hb : b.state.Valid := h.state_b ▸ Piece.valid a.runs ha
  exact ⟨ha, hb, h.state_c ▸ Piece.valid b.runs hb⟩

end Arms

/-- The part is reached and left between the beginning and the end of the whole. -/
theorem Part.later {s part : Site} (h : Part s part) (hs : s.state.Valid) :
    part.state.Valid ∧ Later s.state part.state ∧ Later part.stateAfter s.stateAfter := by
  cases h with
  | inner hprepare hparts hbefore =>
    obtain ⟨hvalid, hbegin, hend, -⟩ := Site.inner_ok hs hprepare hparts hbefore
    exact ⟨hvalid, hbegin, hend⟩
  | @arm a b c harms hpart =>
    obtain ⟨ha, hb, hc⟩ := harms.valid hs
    obtain ⟨-, hstate⟩ := harms.joined
    have hab : Later s.state b.state := by
      rw [harms.state_b, ← harms.state_a]
      exact a.later ha
    have hbc : Later b.state c.state := by
      rw [harms.state_c]
      exact b.later hb
    have hcs : Later c.state s.stateAfter := by
      rw [hstate]
      exact c.later hc
    simp only [List.mem_cons, List.not_mem_nil, or_false] at hpart
    rcases hpart with rfl | rfl | rfl
    · refine ⟨ha, by rw [harms.state_a]; exact .refl _, ?_⟩
      rw [← harms.state_b]
      exact hbc.trans hcs
    · refine ⟨hb, hab, ?_⟩
      rw [← harms.state_c]
      exact hcs
    · refine ⟨hc, hab.trans hbc, ?_⟩
      rw [hstate]
      exact .refl _

theorem Arms.parts_eq {s a b c : Site} (h : Arms s a b c) : s.piece.parts = [] := by
  obtain ⟨_, _, _, _, hs, -⟩ := h.pieces
  rw [hs]
  rfl

theorem later_of_before {s a b : Site} {before after mid : List Piece} {st₀ : CompilerState}
    (hs : s.state.Valid) (hprepare : s.piece.prepare.run s.state = .ok ((), st₀))
    (hparts : s.piece.parts = before ++ a.piece :: after)
    (ha : (Piece.compileAll before s.code).run st₀ = .ok (a.code, a.state))
    (hb : (Piece.compileAll (before ++ a.piece :: mid) s.code).run st₀ = .ok (b.code, b.state)) :
    Later a.stateAfter b.state := by
  obtain ⟨c, st, ha', hb⟩ := compileAll_append_ok.mp hb
  obtain ⟨rfl, rfl⟩ : a.code = c ∧ a.state = st := by simpa [ha] using ha'
  obtain ⟨c, st, hpart, hmid⟩ := compileAll_cons_ok.mp hb
  obtain ⟨rfl, rfl⟩ : a.codeAfter = c ∧ a.stateAfter = st := by simpa [a.runs] using hpart
  obtain ⟨hvalid, -⟩ := Site.inner_ok hs hprepare hparts ha
  exact (later_compileAll hmid (Piece.valid a.runs hvalid)).1

/-- Two parts of a site are the same, or one is left before the other is reached. -/
theorem Part.eq_or_later {s a b : Site} (ha : Part s a) (hb : Part s b) (hs : s.state.Valid) :
    a = b ∨ Later a.stateAfter b.state ∨ Later b.stateAfter a.state := by
  cases ha with
  | @inner before after st₀ hprepare hparts ha =>
    cases hb with
    | @inner before' after' _ hprepare' hparts' hb =>
      obtain rfl : st₀ = _ := by simpa [hprepare] using hprepare'
      have hsplit := hparts.symm.trans hparts'
      -- what stands before the one part begins what stands before the other
      rcases List.append_eq_append_iff.mp hsplit with ⟨mid, rfl, hmid⟩ | ⟨mid, rfl, hmid⟩
      · cases mid with
        | nil =>
          rw [List.append_nil] at hb
          obtain ⟨hcode, hstate⟩ : a.code = b.code ∧ a.state = b.state := by simpa [ha] using hb
          exact .inl (Site.eq_of (List.cons.inj hmid).1 hcode hstate)
        | cons piece mid =>
          obtain ⟨rfl, -⟩ := List.cons.inj hmid
          exact .inr (.inl (later_of_before hs hprepare hparts ha hb))
      · cases mid with
        | nil =>
          rw [List.append_nil] at ha
          obtain ⟨hcode, hstate⟩ : a.code = b.code ∧ a.state = b.state := by
            simpa [hb, eq_comm] using ha
          exact .inl (Site.eq_of (List.cons.inj hmid).1.symm hcode hstate)
        | cons piece mid =>
          obtain ⟨rfl, -⟩ := List.cons.inj hmid
          exact .inr (.inr (later_of_before hs hprepare hparts' hb ha))
    | arm harms => simp [harms.parts_eq] at hparts
  | @arm x y z harms ha =>
    cases hb with
    | inner _ hparts => simp [harms.parts_eq] at hparts
    | arm harms' hb =>
      obtain ⟨rfl, rfl, rfl⟩ := harms.unique harms'
      obtain ⟨-, hy, hz⟩ := harms.valid hs
      have hxy : Later x.stateAfter y.state := harms.state_b ▸ .refl _
      have hyz : Later y.stateAfter z.state := harms.state_c ▸ .refl _
      have hxz : Later x.stateAfter z.state := hxy.trans ((y.later hy).trans hyz)
      simp only [List.mem_cons, List.not_mem_nil, or_false] at ha hb
      rcases ha with rfl | rfl | rfl <;> rcases hb with rfl | rfl | rfl <;> simp [*]

/-- The compiler comes to a site on the way through another, in the same function. -/
abbrev Within : Site → Site → Prop :=
  Relation.ReflTransGen Part

theorem Within.later {s a : Site} (h : Within s a) (hs : s.state.Valid) :
    a.state.Valid ∧ Later s.state a.state ∧ Later a.stateAfter s.stateAfter := by
  induction h with
  | refl => exact ⟨hs, .refl _, .refl _⟩
  | tail _ hpart ih =>
    obtain ⟨hvalid, hbegin, hend⟩ := ih
    obtain ⟨hvalid', hbegin', hend'⟩ := hpart.later hvalid
    exact ⟨hvalid', hbegin.trans hbegin', hend'.trans hend⟩

/-! ### Declarations and their slots -/

/-- A declaration gives away the next slot before its value is compiled. -/
theorem Part.definitions_lt {s part : Site} (h : Part s part) {mutability : Mutability}
    {name : String} {value : Expr} {span : Span}
    (hs : s.piece = .stmt (.declare mutability name value span)) :
    s.state.scopes.current.definitions < part.state.scopes.current.definitions := by
  cases h with
  | @inner before after st₀ hprepare hparts hbefore =>
    rw [hs, Piece.parts, eq_comm, List.append_eq_singleton_iff] at hparts
    rcases hparts with ⟨rfl, -⟩ | ⟨-, hparts⟩
    · obtain ⟨-, rfl⟩ := pure_ok.mp hbefore
      rw [hs, Piece.prepare] at hprepare
      obtain ⟨_, hdeclare⟩ := discard_ok.mp hprepare
      obtain ⟨-, t, hdeclared, hst⟩ := declareName_ok hdeclare
      rw [hst]
      show _ < t.definitions
      rw [hdeclared.definitions]
      exact Nat.lt_succ_self _
    · cases hparts
  | arm harms =>
    obtain ⟨_, _, _, _, hs', -⟩ := harms.pieces
    rw [hs] at hs'
    cases hs'

/-- How a declaration is compiled: the name is declared, and the value `v` is stored in its slot. -/
theorem Site.declare_ok {s : Site} {mutability : Mutability} {name : String} {value : Expr}
    {span : Span} (hs : s.piece = .stmt (.declare mutability name value span)) :
    ∃ symbol v, (declareName mutability name value span).run s.state = .ok (symbol, v.state) ∧
      Part s v ∧ v.piece = .expr value ∧ v.code = s.code ∧
      v.codeAfter.Extends [⟨storeInstruction symbol, span⟩] s.codeAfter := by
  have hruns := s.runs
  rw [hs, Piece.compile, stmt] at hruns
  obtain ⟨symbol, st₀, hdeclare, hruns⟩ := bind_ok.mp hruns
  obtain ⟨code', st', hvalue, hruns⟩ := bind_ok.mp hruns
  obtain ⟨-, -, hcode⟩ := storeNew_ok hruns
  have hprepare : s.piece.prepare.run s.state = .ok ((), st₀) := by
    rw [hs]
    exact discard_ok.mpr ⟨_, hdeclare⟩
  have hparts : s.piece.parts = [] ++ .expr value :: [] := by rw [hs]; rfl
  refine ⟨symbol, ⟨.expr value, s.code, st₀, code', st', hvalue⟩, hdeclare,
    .inner hprepare hparts rfl, rfl, rfl, ?_⟩
  rw [hcode]
  exact (Fragment.Extends.refl code').emit ..

/-- How an assignment is compiled: the name is found, and the value `v` is stored in its slot. -/
theorem Site.assign_ok {s : Site} {name : String} {value : Expr} {span : Span}
    (hs : s.piece = .stmt (.assign name value span)) :
    ∃ symbol v, (resolveTarget name span).run s.state = .ok (symbol, v.state) ∧
      Part s v ∧ v.codeAfter.Extends [⟨assignInstruction symbol, span⟩] s.codeAfter := by
  have hruns := s.runs
  rw [hs, Piece.compile] at hruns
  simp only [stmt, bind_ok, pure_ok] at hruns
  obtain ⟨symbol, st₀, htarget, code', st', hvalue, hcode, -⟩ := hruns
  have hprepare : s.piece.prepare.run s.state = .ok ((), st₀) := by
    rw [hs]
    exact discard_ok.mpr ⟨_, htarget⟩
  have hparts : s.piece.parts = [] ++ .expr value :: [] := by rw [hs]; rfl
  refine ⟨symbol, ⟨.expr value, s.code, st₀, code', st', hvalue⟩, htarget,
    .inner hprepare hparts rfl, ?_⟩
  rw [← hcode, assign, assignInstruction]
  split <;> exact (Fragment.Extends.refl code').emit ..

/-- A declaration gives away a slot. -/
theorem Site.definitions_lt {s : Site} (hvalid : s.state.Valid) {mutability : Mutability}
    {name : String} {value : Expr} {span : Span}
    (hs : s.piece = .stmt (.declare mutability name value span)) :
    s.state.scopes.current.definitions < s.stateAfter.scopes.current.definitions := by
  obtain ⟨-, part, -, hpart, -⟩ := s.declare_ok hs
  obtain ⟨hvalid', -, hend⟩ := hpart.later hvalid
  have h₁ := hpart.definitions_lt hs
  have h₂ := (part.later hvalid').definitions_le
  have h₃ := hend.definitions_le
  omega

/-- Declarations in the same function have different slots. -/
theorem Within.eq_of_definitions {s a b : Site} (ha : Within s a) (hb : Within s b)
    (hs : s.state.Valid) {mutability mutability' : Mutability} {name name' : String}
    {value value' : Expr} {span span' : Span}
    (hdeclare : a.piece = .stmt (.declare mutability name value span))
    (hdeclare' : b.piece = .stmt (.declare mutability' name' value' span'))
    (hslot : a.state.scopes.current.definitions = b.state.scopes.current.definitions) : a = b := by
  -- one inside the other comes after its beginning, and one after the other comes after its end
  have hinside : ∀ {s a}, Within s a → s.state.Valid → ∀ {mutability name value span},
      s.piece = .stmt (.declare mutability name value span) →
      s.state.scopes.current.definitions = a.state.scopes.current.definitions → s = a := by
    intro s a h hs _ _ _ _ hpiece heq
    rcases Relation.ReflTransGen.cases_head h with rfl | ⟨c, hpart, hc⟩
    · rfl
    · have hlt := hpart.definitions_lt hpiece
      have hle := (Within.later hc (hpart.later hs).1).2.1.definitions_le
      omega
  have hafter : ∀ {x y a b}, Within x a → Within y b → x.state.Valid → y.state.Valid →
      Later x.stateAfter y.state → ∀ {mutability name value span},
      a.piece = .stmt (.declare mutability name value span) →
      a.state.scopes.current.definitions < b.state.scopes.current.definitions := by
    intro x y a b hxa hyb hx hy hlater _ _ _ _ hpiece
    obtain ⟨hvalid, -, hend⟩ := hxa.later hx
    have h₁ := a.definitions_lt hvalid hpiece
    have h₂ := hend.definitions_le
    have h₃ := hlater.definitions_le
    have h₄ := (hyb.later hy).2.1.definitions_le
    omega
  induction ha using Relation.ReflTransGen.head_induction_on with
  | refl => exact hinside hb hs hdeclare hslot
  | @head s x hx hxa ih =>
    rcases Relation.ReflTransGen.cases_head hb with rfl | ⟨y, hy, hyb⟩
    · exact (hinside (hxa.head hx) hs hdeclare' hslot.symm).symm
    · obtain ⟨hxvalid, -⟩ := hx.later hs
      obtain ⟨hyvalid, -⟩ := hy.later hs
      rcases hx.eq_or_later hy hs with rfl | hlater | hlater
      · exact ih hyb hxvalid
      · have := hafter hxa hyb hxvalid hyvalid hlater hdeclare
        omega
      · have := hafter hyb hxa hyvalid hxvalid hlater hdeclare'
        omega

/-! ### Functions and their indices -/

namespace Body

variable {j : Nat} {s body : Site}

theorem valid (h : Body j s body) (hs : s.state.Valid) : body.state.Valid := by
  obtain ⟨-, henter, -⟩ := h
  exact valid_enterFunction henter hs

/-- How the function around the body is compiled. -/
theorem function (h : Body j s body) : ∃ name? params b span,
    s.piece = .expr (.function name? params b span) ∧
    (enterFunction name? params).run s.state = .ok ((), body.state) ∧
    body.stateAfter.scopes.current.definitions ≤ maxNarrow + 1 ∧
    body.stateAfter.scopes.current.captures.toList.length ≤ maxNarrow ∧
    s.stateAfter = ⟨body.stateAfter.scopes.leave?.getD {}, body.stateAfter.constants.push
      (.function (functionCode name? params body.codeAfter body.stateAfter.scopes.current))⟩ ∧
    s.code.Extends (loads body.stateAfter.scopes.current.captures.toList span ++
      [⟨⟨.closure, [j, body.stateAfter.scopes.current.captures.toList.length]⟩, span⟩])
      s.codeAfter := by
  obtain @⟨name?, params, b, span, hpiece, henter, hbody, hcode, hj⟩ := h
  have hruns := s.runs
  rw [hpiece] at hruns
  obtain ⟨entered, bodyCode, last, henter', hrun, -, hlocals, hcaptures, -, hlast, hcode'⟩ :=
    function_run hruns
  obtain rfl : body.state = entered := by simpa [henter] using henter'
  have hruns' := body.runs
  rw [hbody, hcode] at hruns'
  obtain ⟨rfl, rfl⟩ : body.codeAfter = bodyCode ∧ body.stateAfter = last := by
    simpa [Piece.compile, hrun, eq_comm] using hruns'
  refine ⟨_, _, _, _, hpiece, henter, hlocals, hcaptures, hlast, ?_⟩
  have hloads :=
    (placed_loadAll body.stateAfter.scopes.current.captures.toList span s.code).extended
  rw [moved_loads] at hloads
  rw [hcode', hj]
  exact hloads.emit ..

/-- The body is compiled with the globals and constants from before, and the function is added to
the pool. -/
theorem after (h : Body j s body) (hs : s.state.Valid) :
    After s.state body.state ∧ After body.stateAfter s.stateAfter := by
  have hvalid := h.valid hs
  obtain ⟨name?, params, b, span, -, henter, -, -, hlast, -⟩ := h.function
  obtain ⟨t, ht, hentered⟩ := enterFunction_ok henter hs.sound
  have houter : body.stateAfter.scopes.outer ≠ [] := by
    have hglobal := (body.later hvalid).isGlobal
    rw [← hentered] at hglobal
    intro hnil
    simp [Scopes.isGlobal, hnil] at hglobal
  have hroot := (Scopes.leave_spec (Piece.valid body.runs hvalid).sound houter).1
  constructor
  · rw [← hentered]
    refine ⟨⟨[], ?_⟩, List.prefix_rfl⟩
    have hsame : (Scopes.mk t (s.state.scopes.current :: s.state.scopes.outer)).root =
        s.state.scopes.root := by
      rw [Scopes.root, Scopes.root, List.getLastD_cons]
    rw [hsame]
    exact .refl _ _
  · rw [hlast]
    refine ⟨⟨[], ?_⟩, by simp⟩
    rw [hroot]
    exact .refl _ _

/-- Every function has a body. -/
theorem exists_of_function {name? : Option String} {params : List Param} {b : Block} {span : Span}
    (hs : s.piece = .expr (.function name? params b span)) : ∃ j body, Body j s body := by
  have hruns := s.runs
  rw [hs] at hruns
  obtain ⟨entered, bodyCode, last, henter, hrun, -⟩ := function_run hruns
  exact ⟨_, ⟨.block .body b, {}, entered, bodyCode, last, hrun⟩, hs, henter, rfl, rfl, rfl⟩

theorem sizes (h : Body j s body) :
    body.stateAfter.constants.size = j ∧ s.stateAfter.constants.size = j + 1 := by
  obtain ⟨_, _, _, _, -, -, -, -, hlast, -⟩ := h.function
  obtain ⟨-, -, -, -, hj⟩ := h
  exact ⟨hj, by rw [hlast, Array.size_push, hj]⟩

theorem unique {j' : Nat} {body' : Site} (h : Body j s body) (h' : Body j' s body') :
    body = body' := by
  obtain ⟨hpiece, henter, hbody, hcode, -⟩ := h
  obtain ⟨hpiece', henter', hbody', hcode', -⟩ := h'
  rw [hpiece] at hpiece'
  cases hpiece'
  have hstate : body.state = body'.state := by simpa [henter] using henter'
  exact Site.eq_of (hbody.trans hbody'.symm) (hcode.trans hcode'.symm) hstate

/-- Functions have no parts in the code around them. -/
theorem not_part (h : Body j s body) (part : Site) : ¬ Part s part := by
  obtain ⟨hpiece, -⟩ := h
  intro hpart
  cases hpart with
  | inner _ hparts =>
    have hnil : s.piece.parts = [] := by
      rw [hpiece]
      rfl
    simp [hnil] at hparts
  | arm harms =>
    obtain ⟨_, _, _, _, hs, -⟩ := harms.pieces
    rw [hpiece] at hs
    cases hs

end Body

/-- The compiler comes to a site on the way through another, perhaps in a function inside. -/
abbrev Inside : Site → Site → Prop :=
  Relation.ReflTransGen fun s s' => Part s s' ∨ ∃ j, Body j s s'

theorem Inside.after {s a : Site} (h : Inside s a) (hs : s.state.Valid) :
    a.state.Valid ∧ After s.state a.state ∧ After a.stateAfter s.stateAfter := by
  induction h with
  | refl => exact ⟨hs, .refl _, .refl _⟩
  | tail _ hstep ih =>
    obtain ⟨hvalid, hbegin, hend⟩ := ih
    rcases hstep with hpart | ⟨j, hbody⟩
    · obtain ⟨hvalid', hbegin', hend'⟩ := hpart.later hvalid
      exact ⟨hvalid', hbegin.trans hbegin'.toAfter, hend'.toAfter.trans hend⟩
    · obtain ⟨hbegin', hend'⟩ := hbody.after hvalid
      exact ⟨hbody.valid hvalid, hbegin.trans hbegin', hend'.trans hend⟩

/-- A function is not inside another one with the same index. -/
theorem Body.eq_of_inside {s s' a a' : Site} {j : Nat} (hbody : Body j s s') (h : Inside s a)
    (hs : s.state.Valid) (hbody' : Body j a a') : s = a := by
  rcases Relation.ReflTransGen.cases_head h with rfl | ⟨c, hpart | ⟨j', hbody''⟩, hc⟩
  · rfl
  · exact absurd hpart (hbody.not_part c)
  · obtain rfl := hbody.unique hbody''
    obtain ⟨hvalid, -, hend⟩ := Inside.after hc (hbody.valid hs)
    obtain ⟨hj, -⟩ := hbody.sizes
    obtain ⟨-, hj'⟩ := hbody'.sizes
    have := hend.size_le
    omega

/-- What is compiled later has other indices. -/
theorem Body.not_body_of_later {x y a a' b b' : Site} {j : Nat} (hbody : Body j a a')
    (hxa : Inside x a) (hyb : Inside y b) (hx : x.state.Valid) (hy : y.state.Valid)
    (hlater : Later x.stateAfter y.state) : ¬ Body j b b' := by
  intro hbody'
  obtain ⟨hvalid, -, hend⟩ := hxa.after hx
  obtain ⟨hvalid', hbegin, -⟩ := hyb.after hy
  obtain ⟨-, hj⟩ := hbody.sizes
  obtain ⟨hj', -⟩ := hbody'.sizes
  have hall := (((hend.trans hlater.toAfter).trans hbegin).trans (hbody'.after hvalid').1).trans
    (b'.later (hbody'.valid hvalid')).toAfter
  have := hall.size_le
  omega

/-- Functions are known by their indices in the pool. -/
theorem Inside.eq_of_body {s a b a' b' : Site} {j : Nat} (ha : Inside s a) (hb : Inside s b)
    (hs : s.state.Valid) (ha' : Body j a a') (hb' : Body j b b') : a = b := by
  induction ha using Relation.ReflTransGen.head_induction_on with
  | refl => exact ha'.eq_of_inside hb hs hb'
  | @head s x hx hxa ih =>
    rcases Relation.ReflTransGen.cases_head hb with rfl | ⟨y, hy, hyb⟩
    · exact (hb'.eq_of_inside (Relation.ReflTransGen.head hx hxa) hs ha').symm
    · rcases hx with hx | ⟨i, hx⟩
      · rcases hy with hy | ⟨i', hy⟩
        · obtain ⟨hxvalid, -⟩ := hx.later hs
          obtain ⟨hyvalid, -⟩ := hy.later hs
          -- the ways to the two functions go through the same part, or one of them comes first
          rcases hx.eq_or_later hy hs with rfl | hlater | hlater
          · exact ih hyb hxvalid
          · exact absurd hb' (ha'.not_body_of_later hxa hyb hxvalid hyvalid hlater)
          · exact absurd ha' (hb'.not_body_of_later hyb hxa hyvalid hxvalid hlater)
        · exact absurd hx (hy.not_part x)
      · rcases hy with hy | ⟨i', hy⟩
        · exact absurd hy (hx.not_part y)
        · obtain rfl := hx.unique hy
          exact ih hyb (hx.valid hs)

section

variable {st : CompilerState} {ast : Ast} {o : Option Nat} {j : Nat}

/-- The pieces directly under a piece of a tree. -/
inductive Piece.Child : Piece → Piece → Prop where
  | part {t part : Piece} : part ∈ t.parts → Child t part
  | condition {condition : Expr} {thenBranch : Block} {elseBranch : Option Block} {span : Span} :
      Child (.expr (.conditional condition thenBranch elseBranch span)) (.expr condition)
  | thenBranch {condition : Expr} {thenBranch : Block} {elseBranch : Option Block} {span : Span} :
      Child (.expr (.conditional condition thenBranch elseBranch span)) (.block .arm thenBranch)
  | elseBranch {condition : Expr} {thenBranch : Block} {elseBranch : Option Block} {span : Span} :
      Child (.expr (.conditional condition thenBranch elseBranch span))
        (.alternative elseBranch span)
  | body {name? : Option String} {params : List Param} {b : Block} {span : Span} :
      Child (.expr (.function name? params b span)) (.block .body b)

/-- The compiler comes to a part when it is done with those before. -/
theorem Occurs.exists_part {s : Site} {t : Piece} {before after : List Piece}
    (h : Occurs st ast o s) (hparts : s.piece.parts = before ++ t :: after) :
    ∃ st₀ part, Occurs st ast o part ∧ part.piece = t ∧
      s.piece.prepare.run s.state = .ok ((), st₀) ∧
      (Piece.compileAll before s.code).run st₀ = .ok (part.code, part.state) := by
  obtain ⟨st₀, part, -, -, -, hprepare, rfl, hbefore, -⟩ := s.exists_part hparts
  exact ⟨st₀, part, h.part (.inner hprepare hparts hbefore), rfl, hprepare, hbefore⟩

theorem Occurs.exists_first {s : Site} {t : Piece} {after : List Piece} (h : Occurs st ast o s)
    (hparts : s.piece.parts = t :: after) :
    ∃ part, Occurs st ast o part ∧ part.piece = t ∧ part.code = s.code ∧
      s.piece.prepare.run s.state = .ok ((), part.state) := by
  have hsplit : s.piece.parts = [] ++ t :: after := hparts
  obtain ⟨st₀, part, hpart, hpiece, hprepare, hbefore⟩ := h.exists_part hsplit
  obtain ⟨hcode, rfl⟩ := pure_ok.mp hbefore
  exact ⟨part, hpart, hpiece, hcode.symm, hprepare⟩

/-- The compiler comes to the body of a function. -/
theorem Occurs.exists_body {s : Site} {name? : Option String} {params : List Param} {b : Block}
    {span : Span} (h : Occurs st ast o s)
    (hpiece : s.piece = .expr (.function name? params b span)) :
    ∃ j body, Occurs st ast (some j) body ∧ body.piece = .block .body b ∧ body.code = {} ∧
      (enterFunction name? params).run s.state = .ok ((), body.state) ∧
      body.stateAfter.constants.size = j := by
  obtain ⟨j, body, hbody⟩ := Body.exists_of_function hpiece
  refine ⟨j, body, h.body hbody, ?_⟩
  obtain ⟨hs, henter, hblock, hcode, hj⟩ := hbody
  rw [hpiece] at hs
  cases hs
  exact ⟨hblock, hcode, henter, hj⟩

/-- The compiler comes to the condition and both arms of a conditional. -/
theorem Occurs.exists_arm {s : Site} {condition : Expr} {thenBranch : Block}
    {elseBranch : Option Block} {span : Span} (h : Occurs st ast o s)
    (hpiece : s.piece = .expr (.conditional condition thenBranch elseBranch span)) :
    ∃ a b c : Site, (∀ arm ∈ [a, b, c], Occurs st ast o arm) ∧ a.piece = .expr condition ∧
      b.piece = .block .arm thenBranch ∧ c.piece = .alternative elseBranch span := by
  obtain ⟨a, b, c, harms⟩ := s.exists_arms ⟨_, _, _, _, hpiece⟩
  obtain ⟨_, _, _, _, hs, ha, hb, hc⟩ := harms.pieces
  rw [hpiece] at hs
  cases hs
  exact ⟨a, b, c, fun arm harm => h.part (.arm harms harm), ha, hb, hc⟩

/-- The compiler comes to all pieces of a tree. -/
theorem Occurs.exists_of_child {s : Site} {t : Piece} (h : Occurs st ast o s)
    (hchild : s.piece.Child t) : ∃ o' s', Occurs st ast o' s' ∧ s'.piece = t := by
  generalize hpiece : s.piece = u at hchild
  cases hchild with
  | part hpart =>
    obtain ⟨before, after, hparts⟩ := List.append_of_mem hpart
    rw [← hpiece] at hparts
    obtain ⟨st₀, part, hpart, hpiece, -⟩ := h.exists_part hparts
    exact ⟨o, part, hpart, hpiece⟩
  | condition =>
    obtain ⟨a, b, c, hs, ha, -, -⟩ := h.exists_arm hpiece
    exact ⟨o, a, hs a (by simp), ha⟩
  | thenBranch =>
    obtain ⟨a, b, c, hs, -, hb, -⟩ := h.exists_arm hpiece
    exact ⟨o, b, hs b (by simp), hb⟩
  | elseBranch =>
    obtain ⟨a, b, c, hs, -, -, hc⟩ := h.exists_arm hpiece
    exact ⟨o, c, hs c (by simp), hc⟩
  | body =>
    obtain ⟨j, body, hbody, hblock, -⟩ := h.exists_body hpiece
    exact ⟨some j, body, hbody, hblock⟩

/-- The site of the whole main code, or of the whole body of a function. -/
inductive Whole (st : CompilerState) (ast : Ast) : Option Nat → Site → Prop where
  | program {s : Site} : s.piece = .program ast.statements → s.code = {} → s.state = st →
      Whole st ast none s
  | body {o : Option Nat} {j : Nat} {s body : Site} : Occurs st ast o s → Body j s body →
      Whole st ast (some j) body

theorem Occurs.exists_whole {s : Site} (h : Occurs st ast o s) :
    ∃ whole, Whole st ast o whole ∧ Within whole s := by
  induction h with
  | program hpiece hcode hstate => exact ⟨_, .program hpiece hcode hstate, .refl⟩
  | part _ hpart ih =>
    obtain ⟨whole, hwhole, hwithin⟩ := ih
    exact ⟨whole, hwhole, hwithin.tail hpart⟩
  | body hoccurs hbody => exact ⟨_, .body hoccurs hbody, .refl⟩

theorem Whole.occurs {s : Site} (h : Whole st ast o s) : Occurs st ast o s := by
  cases h with
  | program hpiece hcode hstate => exact .program hpiece hcode hstate
  | body hoccurs hbody => exact .body hoccurs hbody

theorem Occurs.of_within {s a : Site} (h : Occurs st ast o s) (ha : Within s a) :
    Occurs st ast o a := by
  induction ha with
  | refl => exact h
  | tail _ hpart ih => exact ih.part hpart

theorem Occurs.inside {s : Site} (h : Occurs st ast o s) :
    ∃ program, Whole st ast none program ∧ Inside program s := by
  induction h with
  | program hpiece hcode hstate => exact ⟨_, .program hpiece hcode hstate, .refl⟩
  | part _ hpart ih =>
    obtain ⟨program, hprogram, hinside⟩ := ih
    exact ⟨program, hprogram, hinside.tail (.inl hpart)⟩
  | body _ hbody ih =>
    obtain ⟨program, hprogram, hinside⟩ := ih
    exact ⟨program, hprogram, hinside.tail (.inr ⟨_, hbody⟩)⟩

/-- The code of a program or of a function is compiled once. -/
theorem Whole.unique {a b : Site} (hst : st.Valid) (ha : Whole st ast o a)
    (hb : Whole st ast o b) : a = b := by
  cases ha with
  | program hpiece hcode hstate =>
    cases hb with
    | program hpiece' hcode' hstate' =>
      exact Site.eq_of (hpiece.trans hpiece'.symm) (hcode.trans hcode'.symm)
        (hstate.trans hstate'.symm)
  | body hoccurs hbody =>
    cases hb with
    | body hoccurs' hbody' =>
      obtain ⟨program, hprogram, hinside⟩ := hoccurs.inside
      obtain ⟨program', hprogram', hinside'⟩ := hoccurs'.inside
      obtain rfl : program = program' := by
        cases hprogram with
        | program hpiece hcode hstate =>
          cases hprogram' with
          | program hpiece' hcode' hstate' =>
            exact Site.eq_of (hpiece.trans hpiece'.symm) (hcode.trans hcode'.symm)
              (hstate.trans hstate'.symm)
      have hvalid : program.state.Valid := by
        cases hprogram with
        | program _ _ hstate => exact hstate ▸ hst
      obtain rfl := hinside.eq_of_body hinside' hvalid hbody hbody'
      exact hbody.unique hbody'

end

/-! ### Code in its place -/

/-- Jumps of emitted code stay in it. -/
theorem Placed.targets_le {is : List (Located Instruction)} (h : Placed is code code₁)
    (hbalanced : Balanced is) : ∀ i ∈ moved code.stop is, i.value.opcode.isJump = true →
      ∀ t ∈ i.value.operands, t ≤ code₁.stop := by
  intro i hi hjump t ht
  obtain ⟨j, hj, rfl⟩ := List.mem_map.mp hi
  obtain ⟨k, hk⟩ := List.mem_iff_getElem?.mp hj
  rw [Instruction.opcode_moved] at hjump
  obtain ⟨k', -, -, hoperands, -⟩ := (hbalanced hk).target hjump
  rw [Instruction.operands_moved _ hjump, hoperands] at ht
  rw [h.stop, List.mem_singleton.mp ht]
  have := offsetAt_le is k'
  show offsetAt is k' + code.stop ≤ _
  omega

/-- What a part of the compiler adds: instructions whose jumps stay among them. -/
theorem Emits.extends {count : Nat} {part : Fragment → Compile Fragment} (h : Emits count part)
    (hrun : (part code).run st = .ok (code₁, st₁)) (hst : st.Valid) :
    ∃ js, code.Extends js code₁ ∧ ∀ i ∈ js, i.value.opcode.isJump = true →
      ∀ t ∈ i.value.operands, t ≤ code₁.stop := by
  obtain ⟨is, hemitted, hplaced⟩ := h hrun hst
  obtain ⟨-, hplaced⟩ := hplaced hrun
  exact ⟨_, hplaced.extended, hplaced.targets_le hemitted.balanced⟩

theorem Site.extends (s : Site) (hs : s.state.Valid) : ∃ js, s.code.Extends js s.codeAfter ∧
    ∀ i ∈ js, i.value.opcode.isJump = true → ∀ t ∈ i.value.operands, t ≤ s.codeAfter.stop := by
  obtain ⟨count, hemits⟩ := s.piece.emits
  exact hemits.extends s.runs hs

/-- The code of a site stands in the instructions `whole`, and no jump leads into it from before. -/
def Site.Sits (whole : List (Located Instruction)) (s : Site) : Prop :=
  ∃ pre js post, whole = pre ++ js ++ post ∧ s.code.Extends js s.codeAfter ∧
    (encodeAll pre).length = s.code.stop ∧ ∀ i ∈ pre, i.value.opcode.isJump = true →
      ∀ t ∈ i.value.operands, t ≤ s.code.stop ∨ s.codeAfter.stop ≤ t

/-- The code of a conditional. -/
theorem Arms.extends {s a b c : Site} (h : Arms s a b c) (hs : s.state.Valid) :
    ∃ ja jb jc, a.code.Extends ja a.codeAfter ∧ b.code.Extends jb b.codeAfter ∧
      c.code.Extends jc c.codeAfter ∧
      s.code.Extends (ja ++ [⟨⟨.jumpNotTruthy, [c.code.stop]⟩, s.piece.span⟩] ++ jb ++
        [⟨⟨.jump, [c.codeAfter.stop]⟩, s.piece.span⟩] ++ jc) s.codeAfter ∧
      (∀ i ∈ ja, i.value.opcode.isJump = true → ∀ t ∈ i.value.operands, t ≤ a.codeAfter.stop) ∧
      (∀ i ∈ jb, i.value.opcode.isJump = true → ∀ t ∈ i.value.operands, t ≤ b.codeAfter.stop) ∧
      b.code.stop = a.codeAfter.stop + Opcode.jumpNotTruthy.width ∧
      c.code.stop = b.codeAfter.stop + Opcode.jump.width ∧
      s.codeAfter.stop = c.codeAfter.stop := by
  obtain ⟨hva, hvb, hvc⟩ := h.valid hs
  obtain ⟨hjoined, -⟩ := h.joined
  obtain ⟨ja, hja, hjumps⟩ := a.extends hva
  obtain ⟨jb, hjb, hjumps'⟩ := b.extends hvb
  obtain ⟨jc, hjc, -⟩ := c.extends hvc
  have hb : b.code.stop = a.codeAfter.stop + Opcode.jumpNotTruthy.width := by
    rw [h.code_b, Fragment.stop_startingAt]
  have hc : c.code.stop = b.codeAfter.stop + Opcode.jump.width := by
    rw [h.code_c, Fragment.stop_startingAt]
  have hstart : c.codeAfter.start = c.code.stop := by rw [hjc.start, h.code_c]; rfl
  have hjb' := h.code_b ▸ hjb
  have hjc' := h.code_c ▸ hjc
  have hall := (((hja.emit .jumpNotTruthy [c.codeAfter.start] s.piece.span).append hjb').emit .jump
    [c.codeAfter.stop] s.piece.span).append hjc'
  have hall' : s.code.Extends (ja ++ [⟨⟨.jumpNotTruthy, [c.code.stop]⟩, s.piece.span⟩] ++ jb ++
      [⟨⟨.jump, [c.codeAfter.stop]⟩, s.piece.span⟩] ++ jc) s.codeAfter := by
    rw [hjoined, ← hstart, ← h.code_a]
    exact hall
  refine ⟨ja, jb, jc, hja, hjb, hjc, hall', hjumps, hjumps', hb, hc, ?_⟩
  have h₁ := hall'.stop
  have h₂ := hja.stop
  have h₃ := hjb.stop
  have h₄ := hjc.stop
  rw [h.code_a] at h₂
  simp only [encodeAll_append, encodeAll_singleton, List.length_append,
    Instruction.length_encode] at h₁
  omega

/-- The jumps among the instructions lead at most to `low`, or at least to `high`. -/
def JumpsPast (low high : Nat) (is : List (Located Instruction)) : Prop :=
  ∀ i ∈ is, i.value.opcode.isJump = true → ∀ t ∈ i.value.operands, t ≤ low ∨ high ≤ t

namespace JumpsPast

variable {low high low' high' : Nat} {is js : List (Located Instruction)}

theorem mono (h : JumpsPast low high is) (hlow : low ≤ low') (hhigh : high' ≤ high) :
    JumpsPast low' high' is := by
  intro i hi hjump t ht
  rcases h i hi hjump t ht with hbelow | habove
  · exact .inl (Nat.le_trans hbelow hlow)
  · exact .inr (Nat.le_trans hhigh habove)

theorem append (h : JumpsPast low high is) (h' : JumpsPast low high js) :
    JumpsPast low high (is ++ js) := by
  intro i hi
  rcases List.mem_append.mp hi with hi | hi
  · exact h i hi
  · exact h' i hi

theorem of_targets_le {stop : Nat}
    (h : ∀ i ∈ is, i.value.opcode.isJump = true → ∀ t ∈ i.value.operands, t ≤ stop)
    (hstop : stop ≤ low) : JumpsPast low high is := by
  intro i hi hjump t ht
  exact .inl (Nat.le_trans (h i hi hjump t ht) hstop)

theorem singleton {op : Opcode} {target : Nat} {span : Span} (h : target ≤ low ∨ high ≤ target) :
    JumpsPast low high [⟨⟨op, [target]⟩, span⟩] := by
  intro i hi _ t ht
  rw [List.mem_singleton.mp hi] at ht
  rwa [List.mem_singleton.mp ht]

end JumpsPast

/-- The code of the condition and the arms of a conditional stands in the code of the whole. -/
theorem Arms.sits {whole : List (Located Instruction)} {s a b c arm : Site} (h : Arms s a b c)
    (harm : arm ∈ [a, b, c]) (hs : s.state.Valid) (hsits : s.Sits whole) : arm.Sits whole := by
  obtain ⟨pre, js, post, rfl, hjs, hpre, hjumps⟩ := hsits
  obtain ⟨ja, jb, jc, hja, hjb, hjc, hall, hjumps₁, hjumps₂, hb, hc, hstop⟩ := h.extends hs
  obtain rfl := hjs.unique hall
  replace hjumps : JumpsPast s.code.stop s.codeAfter.stop pre := hjumps
  have ha := congrArg Fragment.stop h.code_a
  have hsa := hja.stop
  have hsb := hjb.stop
  have hsc := hjc.stop
  simp only [List.mem_cons, List.not_mem_nil, or_false] at harm
  rcases harm with rfl | rfl | rfl
  · refine ⟨pre, ja, _, by simp only [List.append_assoc]; rfl, hja, hpre.trans ha.symm, ?_⟩
    exact hjumps.mono (by omega) (by omega)
  · refine ⟨pre ++ ja ++ [⟨⟨.jumpNotTruthy, [c.code.stop]⟩, s.piece.span⟩], jb, _,
      by simp only [List.append_assoc]; rfl, hjb, ?_, ?_⟩
    · simp only [encodeAll_append, encodeAll_singleton, List.length_append,
        Instruction.length_encode]
      omega
    · -- if the condition is false, this arm is skipped
      have hskip : JumpsPast arm.code.stop arm.codeAfter.stop
          [⟨⟨.jumpNotTruthy, [c.code.stop]⟩, s.piece.span⟩] := .singleton (.inr (by omega))
      exact ((hjumps.mono (by omega) (by omega)).append (.of_targets_le hjumps₁ (by omega))).append
        hskip
  · refine ⟨pre ++ ja ++ [⟨⟨.jumpNotTruthy, [arm.code.stop]⟩, s.piece.span⟩] ++ jb ++
      [⟨⟨.jump, [arm.codeAfter.stop]⟩, s.piece.span⟩], jc, post,
      by simp only [List.append_assoc], hjc, ?_, ?_⟩
    · simp only [encodeAll_append, encodeAll_singleton, List.length_append,
        Instruction.length_encode]
      omega
    · -- the jumps of the conditional itself lead to the beginning and the end of this arm
      have henter : JumpsPast arm.code.stop arm.codeAfter.stop
          [⟨⟨.jumpNotTruthy, [arm.code.stop]⟩, s.piece.span⟩] := .singleton (.inl (Nat.le_refl _))
      have hskip : JumpsPast arm.code.stop arm.codeAfter.stop
          [⟨⟨.jump, [arm.codeAfter.stop]⟩, s.piece.span⟩] := .singleton (.inr (Nat.le_refl _))
      have hbefore : JumpsPast arm.code.stop arm.codeAfter.stop (pre ++ ja) :=
        (hjumps.mono (by omega) (by omega)).append (.of_targets_le hjumps₁ (by omega))
      exact ((hbefore.append henter).append (.of_targets_le hjumps₂ (by omega))).append hskip

/-- The code of a part stands in the code of the whole. -/
theorem Part.sits {whole : List (Located Instruction)} {s part : Site} (h : Part s part)
    (hs : s.state.Valid) (hsits : s.Sits whole) : part.Sits whole := by
  cases h with
  | @inner before after st₀ hprepare hparts hbefore =>
    obtain ⟨pre, js, post, rfl, hjs, hpre, hjumps⟩ := hsits
    obtain ⟨hvalid, -, -, code', st', rest, hafter, hrest⟩ :=
      Site.inner_ok hs hprepare hparts hbefore
    obtain ⟨own, hown, -⟩ := part.extends hvalid
    obtain ⟨_, hemits⟩ := emits_compileAll before
    obtain ⟨js₁, hjs₁, hjumps₁⟩ := hemits.extends hbefore (Piece.valid_prepare hprepare hs)
    obtain ⟨_, hemits'⟩ := emits_compileAll after
    obtain ⟨js₂, hjs₂, -⟩ := hemits'.extends hafter (Piece.valid part.runs hvalid)
    obtain rfl := hjs.unique (((hjs₁.trans hown).trans hjs₂).trans hrest)
    have hstart : s.code.stop ≤ part.code.stop := by
      rw [hjs₁.stop]
      omega
    have hstop : part.codeAfter.stop ≤ s.codeAfter.stop := by
      rw [hrest.stop, hjs₂.stop]
      omega
    refine ⟨pre ++ js₁, own, js₂ ++ rest ++ post, by simp, hown, ?_, ?_⟩
    · rw [encodeAll_append, List.length_append, hpre, hjs₁.stop]
    · have houtside : JumpsPast part.code.stop part.codeAfter.stop pre :=
        JumpsPast.mono hjumps hstart hstop
      exact houtside.append (.of_targets_le hjumps₁ (Nat.le_refl _))
  | arm harms hpart => exact harms.sits hpart hs hsits

theorem Within.sits {whole : List (Located Instruction)} {s a : Site} (h : Within s a)
    (hs : s.state.Valid) (hsits : s.Sits whole) : a.Sits whole := by
  induction h with
  | refl => exact hsits
  | tail hwithin hpart ih => exact hpart.sits (Within.later hwithin hs).1 ih

/-! ### Where instructions come from -/

/-- The pieces whose last instruction stores a value or makes a closure. -/
def Piece.Retains (t : Piece) : Prop :=
  (∃ mutability name value span, t = .stmt (.declare mutability name value span)) ∨
    (∃ name value span, t = .stmt (.assign name value span)) ∨
    ∃ name? params body span, t = .expr (.function name? params body span)

theorem split_append {α : Type} {xs ys a b : List α} {i : α} (h : xs ++ ys = a ++ i :: b) :
    (∃ b', xs = a ++ i :: b') ∨ ∃ a', a = xs ++ a' ∧ ys = a' ++ i :: b := by
  rcases List.append_eq_append_iff.mp h with ⟨a', rfl, rfl⟩ | ⟨rest, rfl, hrest⟩
  · exact .inr ⟨a', rfl, rfl⟩
  · cases rest with
    | nil => exact .inr ⟨[], by simp, by simpa using hrest.symm⟩
    | cons j rest =>
      obtain ⟨rfl, -⟩ := List.cons.inj hrest
      exact .inl ⟨rest, rfl⟩

/-- Instructions of several pieces belong to one of them. -/
theorem exists_of_compileAll {pieces : List Piece} {js a b : List (Located Instruction)}
    {i : Located Instruction}
    (hrun : (Piece.compileAll pieces code).run st = .ok (code₁, st₁)) (hst : st.Valid)
    (hjs : code.Extends js code₁) (hsplit : js = a ++ i :: b) :
    ∃ (before after : List Piece) (part : Site) (js' a' b' : List (Located Instruction)),
      pieces = before ++ part.piece :: after ∧
      (Piece.compileAll before code).run st = .ok (part.code, part.state) ∧ part.state.Valid ∧
      part.code.Extends js' part.codeAfter ∧ js' = a' ++ i :: b' ∧
      part.code.stop + (encodeAll a').length = code.stop + (encodeAll a).length := by
  induction pieces generalizing code st js a with
  | nil =>
    obtain ⟨rfl, rfl⟩ := pure_ok.mp hrun
    have := hjs.unique (.refl code)
    simp [hsplit] at this
  | cons t rest ih =>
    obtain ⟨c, s, hfirst, hrest⟩ := compileAll_cons_ok.mp hrun
    obtain ⟨_, hemits⟩ := t.emits
    obtain ⟨js₁, hjs₁, -⟩ := hemits.extends hfirst hst
    obtain ⟨_, hemits'⟩ := emits_compileAll rest
    obtain ⟨js₂, hjs₂, -⟩ := hemits'.extends hrest (t.valid hfirst hst)
    rw [hjs.unique (hjs₁.trans hjs₂)] at hsplit
    rcases split_append hsplit with ⟨b', hb'⟩ | ⟨a', rfl, ha'⟩
    · exact ⟨[], rest, ⟨t, code, st, c, s, hfirst⟩, js₁, a, b', rfl, rfl, hst, hjs₁, hb', rfl⟩
    · obtain ⟨before, after, part, js', a'', b', rfl, hbefore, hvalid, hjs', hsplit', hstop⟩ :=
        ih hrest (t.valid hfirst hst) hjs₂ ha'
      refine ⟨t :: before, after, part, js', a'', b', rfl, ?_, hvalid, hjs', hsplit', ?_⟩
      · exact compileAll_cons_ok.mpr ⟨c, s, hfirst, hbefore⟩
      · rw [hstop, hjs₁.stop, encodeAll_append, List.length_append]
        omega

/-- Of the own instructions of a piece, only the last one may store a value or make a closure. -/
theorem Finishes.retains {t : Piece} {st' : CompilerState} {own a b : List (Located Instruction)}
    {i : Located Instruction} (h : Finishes t st st' own st₁) (hi : i.value.opcode.Retains)
    (hsplit : own = a ++ i :: b) : t.Retains ∧ b = [] := by
  have hload : ∀ s : Symbol, ¬ (loadInstruction s).opcode.Retains := by
    intro s
    rw [loadInstruction]
    cases s.storage <;> simp [Opcode.Retains]
  have hsingle : ∀ {j : Located Instruction}, [j] = a ++ i :: b → i = j ∧ b = [] := by
    intro j h
    rcases List.append_eq_singleton_iff.mp h.symm with ⟨-, h⟩ | ⟨-, h⟩
    · obtain ⟨rfl, rfl⟩ := List.cons.inj h
      exact ⟨rfl, rfl⟩
    · cases h
  cases h with
  | plain hplain => exact absurd hi (hplain i (by simp [hsplit]))
  | constant =>
    obtain ⟨rfl, -⟩ := hsingle hsplit
    exact absurd hi (show ¬ Opcode.Retains .constant by decide)
  | @identifier _ _ s =>
    obtain ⟨rfl, -⟩ := hsingle hsplit
    exact absurd hi (hload s)
  | declare => exact ⟨.inl ⟨_, _, _, _, rfl⟩, (hsingle hsplit).2⟩
  | assign => exact ⟨.inr (.inl ⟨_, _, _, rfl⟩), (hsingle hsplit).2⟩
  | function =>
    refine ⟨.inr (.inr ⟨_, _, _, _, rfl⟩), ?_⟩
    rcases split_append hsplit with ⟨b', hloads⟩ | ⟨a', rfl, hlast⟩
    · obtain ⟨s, -, rfl⟩ := List.mem_map.mp (hloads ▸ (by simp : i ∈ a ++ i :: b'))
      exact absurd hi (hload s)
    · rcases List.append_eq_singleton_iff.mp hlast.symm with ⟨-, h⟩ | ⟨-, h⟩
      · exact (List.cons.inj h).2
      · cases h

/-- What comes from a piece itself. -/
theorem Finishes.yields {t : Piece} {st' : CompilerState} {own : List (Located Instruction)}
    (h : Finishes t st st' own st₁) : ∀ i ∈ own, t.Yields i := by
  have hload : ∀ s : Symbol, (loadInstruction s).opcode ∈ Piece.loadOpcodes := by
    intro s
    rw [loadInstruction]
    cases s.storage <;> simp [Piece.loadOpcodes]
  cases h with
  | plain _ hyields => exact hyields
  | constant _ _ hyields => exact List.forall_mem_singleton.mpr hyields
  | identifier => exact List.forall_mem_singleton.mpr ⟨hload _, rfl⟩
  | @declare _ _ _ _ s =>
    refine List.forall_mem_singleton.mpr ⟨?_, rfl⟩
    rw [storeInstruction]
    split <;> simp [Piece.opcodes]
  | @assign _ _ _ s =>
    refine List.forall_mem_singleton.mpr ⟨?_, rfl⟩
    rw [assignInstruction]
    split <;> simp [Piece.opcodes]
  | function =>
    intro i hi
    rcases List.mem_append.mp hi with hi | hi
    · obtain ⟨s, -, rfl⟩ := List.mem_map.mp hi
      exact ⟨List.mem_cons_of_mem _ (hload s), rfl⟩
    · rw [List.mem_singleton.mp hi]
      exact ⟨List.mem_cons_self, rfl⟩

/-- The instruction `i`, which stands at the offset, comes from the piece of the site itself, and
not from its parts. -/
inductive Site.Own (s : Site) (i : Located Instruction) (offset : Nat) : Prop where
  /-- It is one of those behind the parts. -/
  | finishing {st₀ st' : CompilerState} {code' : Fragment}
      {own a b : List (Located Instruction)} :
      ¬ s.piece.IsConditional → s.piece.prepare.run s.state = .ok ((), st₀) →
      (Piece.compileAll s.piece.parts s.code).run st₀ = .ok (code', st') →
      Finishes s.piece s.state st' own s.stateAfter → code'.Extends own s.codeAfter →
      own = a ++ i :: b → code'.stop + (encodeAll a).length = offset → Own s i offset
  /-- It is one of the jumps around the arms of a conditional. -/
  | joining {x y z : Site} : Arms s x y z → i.span = s.piece.span →
      i.value.opcode = .jumpNotTruthy ∧ offset = x.codeAfter.stop ∨
        i.value.opcode = .jump ∧ offset = y.codeAfter.stop → Own s i offset

/-- An instruction of a conditional is one of its condition or of an arm, or it is one of the two
jumps. -/
theorem Arms.split {s x y z : Site} (h : Arms s x y z) (hs : s.state.Valid)
    {js a b : List (Located Instruction)} {i : Located Instruction}
    (hjs : s.code.Extends js s.codeAfter) (hsplit : js = a ++ i :: b) :
    (∃ arm ∈ [x, y, z], arm.state.Valid ∧ ∃ js' a' b', arm.code.Extends js' arm.codeAfter ∧
      js' = a' ++ i :: b' ∧
      arm.code.stop + (encodeAll a').length = s.code.stop + (encodeAll a).length) ∨
    i.span = s.piece.span ∧
      (i.value.opcode = .jumpNotTruthy ∧
          s.code.stop + (encodeAll a).length = x.codeAfter.stop ∨
        i.value.opcode = .jump ∧ s.code.stop + (encodeAll a).length = y.codeAfter.stop) := by
  obtain ⟨jx, jy, jz, hjx, hjy, hjz, hall, -, -, hy, hz, -⟩ := h.extends hs
  obtain ⟨hvx, hvy, hvz⟩ := h.valid hs
  rw [hjs.unique hall] at hsplit
  have hx := congrArg Fragment.stop h.code_a
  have hsx := hjx.stop
  have hsy := hjy.stop
  have hsingle : ∀ {j : Located Instruction} {a b : List (Located Instruction)},
      [j] = a ++ i :: b → a = [] ∧ i = j := by
    intro j a b h
    rcases List.append_eq_singleton_iff.mp h.symm with ⟨rfl, h⟩ | ⟨-, h⟩
    · exact ⟨rfl, (List.cons.inj h).1.symm⟩
    · cases h
  -- from the back: the other arm, the jump around it, the first arm, the jump to the other one
  rcases split_append hsplit with ⟨b₁, h₁⟩ | ⟨a₁, rfl, h₁⟩
  · rcases split_append h₁ with ⟨b₂, h₂⟩ | ⟨a₂, rfl, h₂⟩
    · rcases split_append h₂ with ⟨b₃, h₃⟩ | ⟨a₃, rfl, h₃⟩
      · rcases split_append h₃ with ⟨b₄, h₄⟩ | ⟨a₄, rfl, h₄⟩
        · exact .inl ⟨x, by simp, hvx, jx, a, b₄, hjx, h₄, by rw [hx]⟩
        · obtain ⟨rfl, rfl⟩ := hsingle h₄
          refine .inr ⟨rfl, .inl ⟨rfl, ?_⟩⟩
          rw [List.append_nil, hsx, hx]
      · refine .inl ⟨y, by simp, hvy, jy, a₃, b₂, hjy, h₃, ?_⟩
        simp only [encodeAll_append, encodeAll_singleton, List.length_append,
          Instruction.length_encode]
        omega
    · obtain ⟨rfl, rfl⟩ := hsingle h₂
      refine .inr ⟨rfl, .inr ⟨rfl, ?_⟩⟩
      simp only [encodeAll_append, encodeAll_singleton, List.length_append,
        Instruction.length_encode, List.append_nil]
      omega
  · refine .inl ⟨z, by simp, hvz, jz, a₁, b, hjz, h₁, ?_⟩
    simp only [encodeAll_append, encodeAll_singleton, List.length_append,
      Instruction.length_encode]
    omega

/-- Every instruction of a site comes from a piece within it. -/
theorem Site.exists_own (s : Site) (hs : s.state.Valid) {js a b : List (Located Instruction)}
    {i : Located Instruction} (hjs : s.code.Extends js s.codeAfter) (hsplit : js = a ++ i :: b) :
    ∃ part, Within s part ∧ part.Own i (s.code.stop + (encodeAll a).length) := by
  induction hpiece : s.piece using Piece.induction generalizing s js a b with
  | conditional condition thenBranch elseBranch span ih₁ ih₂ ih₃ =>
    obtain ⟨x, y, z, harms⟩ := s.exists_arms ⟨_, _, _, _, hpiece⟩
    obtain ⟨_, _, _, _, hpiece', hx, hy, hz⟩ := harms.pieces
    rw [hpiece] at hpiece'
    cases hpiece'
    rcases harms.split hs hjs hsplit with
      ⟨arm, hmem, hvalid, js', a', b', hjs', hsplit', hoffset⟩ | ⟨hspan, hjump⟩
    · have hinside : ∃ part, Within arm part ∧
          part.Own i (arm.code.stop + (encodeAll a').length) := by
        have hcases := hmem
        simp only [List.mem_cons, List.not_mem_nil, or_false] at hcases
        rcases hcases with rfl | rfl | rfl
        · exact ih₁ _ hvalid hjs' hsplit' hx
        · exact ih₂ _ hvalid hjs' hsplit' hy
        · exact ih₃ _ hvalid hjs' hsplit' hz
      obtain ⟨part, hwithin, hown⟩ := hinside
      exact ⟨part, .head (.arm harms hmem) hwithin, hoffset ▸ hown⟩
    · exact ⟨s, .refl, .joining harms hspan hjump⟩
  | other t hne ihparts ihbody =>
    subst hpiece
    obtain ⟨st₀, code', st', own, hprepare, hparts, hfinishes, hown⟩ := done hne s.runs
    have hvalid₀ := Piece.valid_prepare hprepare hs
    obtain ⟨_, hemits⟩ := emits_compileAll s.piece.parts
    obtain ⟨js₁, hjs₁, -⟩ := hemits.extends hparts hvalid₀
    rw [hjs.unique (hjs₁.trans hown)] at hsplit
    rcases split_append hsplit with ⟨b', hb'⟩ | ⟨a', rfl, ha'⟩
    · obtain ⟨before, after, part, js', a'', b'', hlist, hbefore, hvalid, hjs'', hsplit', hstop⟩ :=
        exists_of_compileAll hparts hvalid₀ hjs₁ hb'
      obtain ⟨found, hwithin, hfound⟩ :=
        ihparts part.piece (by simp [hlist]) part hvalid hjs'' hsplit' rfl
      rw [hstop] at hfound
      exact ⟨found, .head (.inner hprepare hlist hbefore) hwithin, hfound⟩
    · refine ⟨s, .refl, .finishing hne hprepare hparts hfinishes hown ha' ?_⟩
      rw [hjs₁.stop, encodeAll_append, List.length_append]
      omega

/-- The offset lies in the code of the site, but not in that of one of its parts. -/
structure Site.Owns (s : Site) (offset : Nat) : Prop where
  start : s.code.stop ≤ offset
  stop : offset < s.codeAfter.stop
  parts : ∀ part, Part s part → offset < part.code.stop ∨ part.codeAfter.stop ≤ offset

namespace Site.Own

variable {s : Site} {i : Located Instruction} {offset : Nat}

theorem yields (h : s.Own i offset) : s.piece.Yields i := by
  cases h with
  | finishing _ _ _ hfinishes _ hown _ => exact hfinishes.yields i (by simp [hown])
  | joining harms hspan hop =>
    obtain ⟨_, _, _, _, hpiece, -⟩ := harms.pieces
    refine ⟨?_, hspan⟩
    rcases hop with ⟨hop, -⟩ | ⟨hop, -⟩ <;> simp [hop, hpiece, Piece.opcodes]

theorem owns (h : s.Own i offset) (hs : s.state.Valid) : s.Owns offset := by
  cases h with
  | @finishing st₀ st' code' own a b hne hprepare hrun _ hextends hown hoffset =>
    have hvalid₀ := Piece.valid_prepare hprepare hs
    obtain ⟨_, hemits⟩ := emits_compileAll s.piece.parts
    obtain ⟨js, hjs, -⟩ := hemits.extends hrun hvalid₀
    have hstart := hjs.stop
    have hstop := hextends.stop
    rw [hown, List.append_cons, encodeAll_append, encodeAll_append, encodeAll_singleton,
      List.length_append, List.length_append, Instruction.length_encode] at hstop
    have hwidth := i.value.opcode.width_pos
    refine ⟨by omega, by omega, fun part hpart => .inr ?_⟩
    cases hpart with
    | @inner before after _ hprepare' hparts hbefore =>
      obtain rfl : st₀ = _ := by simpa [hprepare] using hprepare'
      obtain ⟨hvalid, -⟩ := inner_ok hs hprepare hparts hbefore
      rw [hparts] at hrun
      obtain ⟨c, st, hbefore', hrun⟩ := compileAll_append_ok.mp hrun
      -- the parts that come after this one lie between it and the own instructions
      obtain ⟨rfl, rfl⟩ : part.code = c ∧ part.state = st := by simpa [hbefore] using hbefore'
      obtain ⟨c, st, hpart, hafter⟩ := compileAll_cons_ok.mp hrun
      obtain ⟨rfl, rfl⟩ : part.codeAfter = c ∧ part.stateAfter = st := by
        simpa [part.runs] using hpart
      obtain ⟨_, hemits⟩ := emits_compileAll after
      obtain ⟨rest, hrest, -⟩ := hemits.extends hafter (Piece.valid part.runs hvalid)
      have hafter := hrest.stop
      omega
    | arm harms =>
      obtain ⟨_, _, _, _, hpiece, -⟩ := harms.pieces
      exact absurd ⟨_, _, _, _, hpiece⟩ hne
  | joining harms _ hop =>
    obtain ⟨ja, jb, jc, hja, hjb, hjc, -, -, -, hy, hz, hstop⟩ := harms.extends hs
    have hx := congrArg Fragment.stop harms.code_a
    have hsx := hja.stop
    have hsy := hjb.stop
    have hsz := hjc.stop
    have hwidth := Opcode.jumpNotTruthy.width_pos
    have hwidth' := Opcode.jump.width_pos
    refine ⟨by omega, by omega, fun part hpart => ?_⟩
    cases hpart with
    | inner _ hparts => simp [harms.parts_eq] at hparts
    | arm harms' hmem =>
      obtain ⟨rfl, rfl, rfl⟩ := harms.unique harms'
      simp only [List.mem_cons, List.not_mem_nil, or_false] at hmem
      rcases hmem with rfl | rfl | rfl <;> omega

end Site.Own

/-- The instruction `i`, which ends at the offset `stop`, is the last one of a declaration, an
assignment or a function within `s`. -/
def Site.Ends (s : Site) (i : Located Instruction) (stop : Nat) : Prop :=
  ∃ part, Within s part ∧ part.piece.Retains ∧ part.codeAfter.stop = stop ∧
    ∃ is, part.codeAfter.instructions.toList = is ++ [i]

/-- Every instruction that stores a value or makes a closure is the last one of a declaration, an
assignment or a function. -/
theorem Site.ends_of_retains (s : Site) (hs : s.state.Valid)
    {js a b : List (Located Instruction)} {i : Located Instruction}
    (hjs : s.code.Extends js s.codeAfter) (hsplit : js = a ++ i :: b)
    (hi : i.value.opcode.Retains) : s.Ends i (s.code.stop + (encodeAll (a ++ [i])).length) := by
  obtain ⟨part, hwithin, hown⟩ := s.exists_own hs hjs hsplit
  rw [encodeAll_append, List.length_append, ← Nat.add_assoc]
  generalize s.code.stop + (encodeAll a).length = offset at hown
  cases hown with
  | @finishing st₀ st' code' own a' b' _ _ _ hfinishes hextends hown hoffset =>
    obtain ⟨hretains, rfl⟩ := hfinishes.retains hi hown
    refine ⟨part, hwithin, hretains, ?_, code'.instructions.toList ++ a', ?_⟩
    · rw [hextends.stop, hown, encodeAll_append, List.length_append, ← hoffset, Nat.add_assoc]
    · rw [hextends.instructions, hown, List.append_assoc]
  | joining _ _ hop =>
    rcases hop with ⟨hop, -⟩ | ⟨hop, -⟩ <;> simp [Opcode.Retains, hop] at hi

end Compile

end Bytescript
