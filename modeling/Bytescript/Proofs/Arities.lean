/-
Recorded numbers of parameters.

The compiler records the number of parameters of a constant that is declared with a function, and of
a function's own name, and it passes the number on when the name is captured. `ScopeTable.Knows`
says that a number is recorded in a table.

Main statement: `kept_recorded`. In all tables that the compiler comes to, numbers are recorded for
constants only, and for captured names as they are where the names were captured.
-/
import Bytescript.Proofs.Provenance

namespace Bytescript

namespace ScopeTable

/-! ### Recorded numbers of parameters -/

/-- In the table a number of parameters is recorded for a name with this storage and index. -/
def Knows (t : ScopeTable) (storage : Storage) (index arity : Nat) : Prop :=
  ∃ (name : String) (s : Symbol), t.symbols[name]? = some s ∧ s.storage = storage ∧
    s.index = index ∧ s.arity? = some arity

/-- Numbers of parameters are recorded for constants only, and for captured names as they are where
the name was found. -/
structure Recorded (t : ScopeTable) : Prop where
  slot : ∀ {n : String} {s : Symbol}, t.symbols[n]? = some s → s.IsSlot → s.arity? ≠ none →
    s.mutability = .constant
  captured : ∀ {n : String} {s : Symbol}, t.symbols[n]? = some s → s.storage = .captured →
    ∃ c, t.captures[s.index]? = some c ∧ c.arity? = s.arity?
  builtin : ∀ {n : String} {s : Symbol}, t.symbols[n]? = some s → s.storage = .builtin →
    s.arity? = none

/-- The table when a function with this number of parameters is entered: its own name is recorded
with it, and nothing is recorded for the parameters, which are constants. -/
def Fresh (arity : Nat) (t : ScopeTable) : Prop :=
  ∀ ⦃n : String⦄ ⦃s : Symbol⦄, t.symbols[n]? = some s →
    (s.storage = .self ∧ s.arity? = some arity) ∨
      (s.IsSlot ∧ s.mutability = .constant ∧ s.arity? = none)

variable {t t₁ : ScopeTable} {s : Symbol}

theorem Fresh.recorded {arity : Nat} (h : t.Fresh arity) : t.Recorded := by
  constructor
  · intro n s hs hslot harity
    rcases h hs with ⟨hself, -⟩ | ⟨-, hconstant, -⟩
    · exact absurd hslot (Symbol.not_isSlot (.inr (.inl hself)))
    · exact hconstant
  · intro n s hs hcaptured
    rcases h hs with ⟨hself, -⟩ | ⟨hslot, -⟩
    · rw [hcaptured] at hself
      cases hself
    · exact absurd hslot (Symbol.not_isSlot (.inl hcaptured))
  · intro n s hs hbuiltin
    rcases h hs with ⟨hself, -⟩ | ⟨hslot, -⟩
    · rw [hbuiltin] at hself
      cases hself
    · exact absurd hslot (Symbol.not_isSlot (.inr (.inr hbuiltin)))

theorem Declared.recorded (h : Declared s t t₁) (ht : t.Recorded)
    (hs : s.arity? ≠ none → s.mutability = .constant) : t₁.Recorded := by
  constructor
  · intro n s' hs' hslot harity
    rw [h.symbols] at hs'
    split at hs'
    · cases hs'
      exact hs harity
    · exact ht.slot hs' hslot harity
  · intro n s' hs' hcaptured
    rw [h.symbols] at hs'
    split at hs'
    · cases hs'
      exact absurd h.isSlot (Symbol.not_isSlot (.inl hcaptured))
    · rw [h.captures]
      exact ht.captured hs' hcaptured
  · intro n s' hs' hbuiltin
    rw [h.symbols] at hs'
    split at hs'
    · cases hs'
      exact absurd h.isSlot (Symbol.not_isSlot (.inr (.inr hbuiltin)))
    · exact ht.builtin hs' hbuiltin

theorem Recorded.capture (ht : t.Recorded) (outside : Symbol) :
    (t.capture outside).2.Recorded := by
  constructor
  · intro n s hs hslot harity
    rw [symbols_capture] at hs
    split at hs
    · cases hs
      exact absurd hslot (Symbol.not_isSlot (.inl rfl))
    · exact ht.slot hs hslot harity
  · intro n s hs hcaptured
    rw [captures_capture]
    rw [symbols_capture] at hs
    split at hs
    · cases hs
      exact ⟨outside, by simp [ScopeTable.capture], rfl⟩
    · obtain ⟨c, hc, harity⟩ := ht.captured hs hcaptured
      have hlt := (Array.getElem?_eq_some_iff.mp hc).1
      exact ⟨c, by rw [Array.getElem?_push, if_neg (by omega), hc], harity⟩
  · intro n s hs hbuiltin
    rw [symbols_capture] at hs
    split at hs
    · cases hs
      cases hbuiltin
    · exact ht.builtin hs hbuiltin

theorem recorded_empty : Recorded {} := by
  constructor <;> simp

theorem recorded_ofBuiltins : (ofBuiltins Builtin.names).Recorded := by
  have hentry : ∀ {n : String} {s : Symbol}, (ofBuiltins Builtin.names).symbols[n]? = some s →
      s.storage = .builtin ∧ s.arity? = none := by
    intro n s hs
    rw [symbols_ofBuiltins, Option.map_eq_some_iff] at hs
    obtain ⟨b, -, rfl⟩ := hs
    exact ⟨rfl, rfl⟩
  constructor
  · intro n s hs hslot
    exact absurd hslot (Symbol.not_isSlot (.inr (.inr (hentry hs).1)))
  · intro n s hs hcaptured
    rw [(hentry hs).1] at hcaptured
    cases hcaptured
  · intro n s hs _
    exact (hentry hs).2

end ScopeTable

/-- What captures keep is kept in all tables when a name is looked up. -/
theorem Scopes.resolveIn_all {P : ScopeTable → Prop}
    (hcapture : ∀ {t : ScopeTable} (outside : Symbol), P t → P (t.capture outside).2)
    {name : String} {t t₁ : ScopeTable} {outer outer₁ : List ScopeTable} {s : Symbol}
    (h : resolveIn name t outer = .ok (s, t₁, outer₁)) (ht : ∀ u ∈ t :: outer, P u) :
    ∀ u ∈ t₁ :: outer₁, P u := by
  induction outer generalizing t s t₁ outer₁ with
  | nil =>
    rw [resolveIn] at h
    split at h
    · cases h
      exact ht
    · cases h
  | cons next outer ih =>
    cases hentry : t.symbols[name]? with
    | some found =>
      rw [resolveIn, hentry] at h
      cases h
      exact ht
    | none =>
      obtain ⟨s', next₁, outer', hrest, hcase⟩ := resolveIn_cons_ok hentry h
      have hnext := ih hrest fun u hu => ht u (List.mem_cons_of_mem _ hu)
      have hhead := ht t List.mem_cons_self
      -- what is found further out is passed on as it is, or it is captured in this table too
      rcases hcase with ⟨-, heq⟩ | ⟨-, heq⟩ <;> cases heq <;> intro u hu <;>
        rcases List.mem_cons.mp hu with rfl | hu
      · exact hhead
      · exact hnext u hu
      · exact hcapture s' hhead
      · exact hnext u hu

namespace Compile

/-- All tables record numbers of parameters as they should. -/
def Recorded (st : CompilerState) : Prop :=
  ∀ t ∈ st.scopes.current :: st.scopes.outer, t.Recorded

theorem recorded_init : Recorded {} := by
  intro t ht
  rw [List.mem_singleton.mp ht]
  exact ScopeTable.recorded_ofBuiltins

section

variable {st st₁ : CompilerState}

theorem mutability_of_recordedArity {mutability : Mutability} {value : Expr}
    (h : recordedArity mutability value ≠ none) : mutability = .constant := by
  cases mutability with
  | constant => rfl
  | mutable => exact absurd rfl h

/-- Parameters are declared as constants. -/
theorem fresh_defineParams {params : List Param} {arity : Nat} {u : Unit}
    (h : (defineParams params).run st = .ok (u, st₁)) (hst : st.scopes.current.Fresh arity) :
    st₁.scopes.current.Fresh arity := by
  induction params generalizing st with
  | nil =>
    obtain ⟨-, rfl⟩ := pure_ok.mp h
    exact hst
  | cons param params ih =>
    rw [defineParams, bind_ok] at h
    obtain ⟨_, st', hdefine, h⟩ := h
    obtain ⟨s, hdefine⟩ := discard_ok.mp hdefine
    obtain ⟨scopes, hscopes, rfl⟩ := withScopes_ok.mp hdefine
    obtain ⟨rfl, t, hdeclared, rfl⟩ := Scopes.define_ok hscopes
    refine ih h ?_
    intro n s' hs'
    replace hs' : t.symbols[n]? = some s' := hs'
    rw [hdeclared.symbols] at hs'
    split at hs'
    · cases hs'
      exact .inr ⟨hdeclared.isSlot, rfl, rfl⟩
    · exact hst hs'

theorem fresh_enterFunction {name? : Option String} {params : List Param} {u : Unit}
    (h : (enterFunction name? params).run st = .ok (u, st₁)) :
    st₁.scopes.current.Fresh params.length := by
  rw [enterFunction, bind_ok] at h
  obtain ⟨_, _, henter, h⟩ := h
  obtain rfl := modify_ok.mp henter
  cases name? with
  | none =>
    refine fresh_defineParams h ?_
    intro n s hs
    simp [Scopes.enter] at hs
  | some name =>
    obtain ⟨_, _, hself, h⟩ := bind_ok.mp h
    obtain rfl := modify_ok.mp hself
    refine fresh_defineParams h ?_
    intro n s hs
    replace hs : (({} : ScopeTable).nameSelf name params.length).2.symbols[n]? = some s := hs
    rw [ScopeTable.nameSelf, ScopeTable.symbols_insert] at hs
    split at hs
    · cases hs
      exact .inl ⟨rfl, rfl⟩
    · simp at hs

/-- The compiler keeps its records in order. -/
theorem kept_recorded : Kept Recorded where
  resolve {name span s st st₁} _ h hst := by
    obtain ⟨scopes, hresolve, rfl⟩ := withScopes_ok.mp h
    rw [Scopes.resolve] at hresolve
    cases hfound : Scopes.resolveIn name st.scopes.current st.scopes.outer with
    | error e =>
      rw [hfound] at hresolve
      cases hresolve
    | ok found =>
      rw [hfound] at hresolve
      cases hresolve
      exact Scopes.resolveIn_all (fun outside ht => ht.capture outside) hfound hst
  declareName {mutability name value span s st st₁} _ h hst := by
    obtain ⟨rfl, t, hdeclared, rfl⟩ := declareName_ok h
    intro u hu
    rcases List.mem_cons.mp hu with rfl | hu
    · exact hdeclared.recorded (hst _ List.mem_cons_self) mutability_of_recordedArity
    · exact hst u (List.mem_cons_of_mem _ hu)
  addConstant _ _ h hst := by
    obtain ⟨-, -, rfl⟩ := addConstant_ok.mp h
    exact hst
  enterFunction {name? params st st₁} hvalid h hst := by
    have hfresh := fresh_enterFunction h
    obtain ⟨t, -, rfl⟩ := enterFunction_ok h hvalid.sound
    intro u hu
    rcases List.mem_cons.mp hu with rfl | hu
    · exact hfresh.recorded
    · exact hst u hu
  leave {name? params body bodyCode entered last} _ _ hst := by
    obtain ⟨⟨current, outer⟩, constants⟩ := last
    cases outer with
    | nil =>
      -- the root has nothing around it, and an empty table takes its place
      intro u hu
      rw [List.mem_singleton.mp hu]
      exact ScopeTable.recorded_empty
    | cons next outer => exact fun u hu => hst u (List.mem_cons_of_mem _ hu)

end

/-! ### The tables in the end -/

section

variable {ast : Ast} {p : Program} {last : CompilerState} {o : Option Nat} {w : Site}

theorem Whole.recorded (h : Whole {} ast o w) : Recorded w.stateAfter := by
  obtain ⟨hvalid, hrecorded⟩ := kept_recorded.occurs CompilerState.valid_init recorded_init h.occurs
  exact kept_recorded.compile w.runs hvalid hrecorded

theorem recorded_root (hcompile : compileFrom {} ast = .ok (p, last)) :
    last.scopes.root.Recorded := by
  obtain ⟨program, hprogram, hlast, -⟩ := exists_program .init hcompile
  rw [root_of_compile .init hcompile, ← hlast]
  exact hprogram.recorded _ List.mem_cons_self

/-- The own name of a function is recorded with its number of parameters. -/
theorem Whole.arity_of_self (hcompile : compileFrom {} ast = .ok (p, last)) (h : Whole {} ast o w)
    {st : CompilerState} (hlater : Later w.state st) {name : String} {symbol : Symbol}
    (hentry : st.scopes.current.symbols[name]? = some symbol) (hself : symbol.storage = .self) :
    ∃ f, p.codeOf? o = some f ∧ symbol.arity? = some f.params := by
  obtain ⟨declared, hgrows⟩ := hlater.current
  have hbegin := hgrows.entry_of_self hentry hself
  cases h with
  | program _ _ hstate =>
    -- the root has no own name
    rw [hstate] at hbegin
    rcases ScopeTable.isRoot_ofBuiltins.storage hbegin with ⟨hstorage, -⟩ | ⟨hstorage, -⟩ <;>
    · rw [hself] at hstorage
      cases hstorage
  | body hoccurs hbody =>
    obtain ⟨name?, params, _, _, -, henter, hconstant⟩ := hbody.constant .init hcompile hoccurs
    refine ⟨_, Program.codeOf?_some.mpr hconstant, ?_⟩
    rcases fresh_enterFunction henter hbegin with ⟨-, harity⟩ | ⟨hslot, -⟩
    · exact harity
    · exact absurd hslot (Symbol.not_isSlot (.inr (.inl hself)))

/-- The slots of a function begin with those of its parameters, which are constants. -/
theorem Whole.param (hcompile : compileFrom {} ast = .ok (p, last)) (h : Whole {} ast o w)
    {f : FunctionCode} (hf : p.codeOf? o = some f) {n : Nat} (hn : n < f.params) :
    n < w.state.scopes.current.definitions ∧ ∃ (name : String) (symbol : Symbol),
      w.stateAfter.scopes.current.symbols[name]? = some symbol ∧ symbol.storage = .localSlot ∧
      symbol.index = n ∧ symbol.mutability = .constant ∧ symbol.arity? = none := by
  have hvalid := h.occurs.valid CompilerState.valid_init
  cases h with
  | program =>
    cases hf
    exact absurd hn (Nat.not_lt_zero n)
  | body hoccurs hbody =>
    obtain ⟨name?, params, _, _, -, henter, hconstant⟩ := hbody.constant .init hcompile hoccurs
    rw [Program.codeOf?_some, hconstant] at hf
    cases hf
    obtain ⟨t, ht, hentered⟩ :=
      enterFunction_ok henter (hoccurs.valid CompilerState.valid_init).sound
    have hcurrent : w.state.scopes.current = t := by rw [← hentered]
    replace hn : n < params.length := hn
    obtain ⟨symbol, hentry, hlocal, hindex⟩ := ht.param (List.getElem?_eq_getElem hn)
    rw [← hcurrent] at hentry
    refine ⟨by rw [hcurrent, ht.definitions]; exact hn, _, symbol,
      (w.later hvalid).entry hentry (by rw [hlocal]; decide), hlocal, hindex, ?_⟩
    -- the other symbol of a new table is the name of the function, which has no slot
    rcases fresh_enterFunction henter hentry with ⟨hself, -⟩ | ⟨-, hconstant, harity⟩
    · rw [hlocal] at hself
      cases hself
    · exact ⟨hconstant, harity⟩

/-- The main code has neither locals nor captured values. -/
theorem Whole.not_knows_of_none (hcompile : compileFrom {} ast = .ok (p, last))
    (h : Whole {} ast none w) {storage : Storage}
    (hstorage : storage = .localSlot ∨ storage = .captured) {n a : Nat} :
    ¬ w.stateAfter.scopes.current.Knows storage n a := by
  rintro ⟨name, symbol, hentry, rfl, -⟩
  rw [h.stateAfter_eq hcompile, ← root_of_compile .init hcompile] at hentry
  rcases (ready_of_compile hcompile).valid.sound.isRoot.storage hentry with ⟨hs, -⟩ | ⟨hs, -⟩ <;>
  simp [hs] at hstorage

/-- A local slot with a recorded number of parameters is none of a parameter. -/
theorem Whole.slot_of_knows (hcompile : compileFrom {} ast = .ok (p, last)) (h : Whole {} ast o w)
    {f : FunctionCode} (hf : p.codeOf? o = some f) {n a : Nat}
    (hknows : w.stateAfter.scopes.current.Knows .localSlot n a) : f.params ≤ n ∧ n < f.locals := by
  have hslot := hknows
  obtain ⟨name, symbol, hentry, hlocal, hindex, harity⟩ := hknows
  have hsound := (Piece.valid w.runs (h.occurs.valid CompilerState.valid_init)).sound
  constructor
  · -- otherwise it would be the slot of a parameter, for which nothing is recorded
    by_contra hlt
    obtain ⟨-, name', symbol', hentry', hlocal', hindex', -, harity'⟩ :=
      h.param hcompile hf (Nat.not_le.mp hlt)
    obtain rfl := hsound.sound.slot_unique hentry hentry' (.inr hlocal) (.inr hlocal')
      (hindex.trans hindex'.symm)
    rw [hentry] at hentry'
    cases hentry'
    rw [harity] at harity'
    cases harity'
  · have hlt := hsound.sound.slot_lt hentry (.inr hlocal)
    obtain ⟨f', hf', -, hlocals⟩ := h.lists hcompile
    obtain rfl : f = f' := by simpa [hf] using hf'
    cases o with
    | none => exact absurd hslot (h.not_knows_of_none hcompile (.inl rfl))
    | some j =>
      rw [hlocals, ← hindex]
      exact hlt

end

end Compile

end Bytescript
