/-
The values of names.

Main statement: `denotes_resolve`. The symbol that the compiler finds for a name is loaded with the
value that the name has in the evaluation. `Running.Tracks` relates what the compiler knows about
names at a place of the tree to what the evaluation knows there.
-/
import Bytescript.Proofs.Simulation

namespace Bytescript

open Compile (Advances Adds)

variable {S : Setting} {R : Running S}

/-! ### Operands -/

theorem Instruction.fits_nil {op : Opcode} (hop : op.operandWidths = []) : Fits ⟨op, []⟩ := by
  rw [Fits, hop]
  exact .nil

theorem Instruction.fits_narrow {op : Opcode} {n : Nat} (hop : op.operandWidths = [1])
    (hn : n < 256) : Fits ⟨op, [n]⟩ := by
  rw [Fits, hop]
  exact .cons hn .nil

theorem Instruction.fits_wide {op : Opcode} {n : Nat} (hop : op.operandWidths = [2])
    (hn : n < 65536) : Fits ⟨op, [n]⟩ := by
  rw [Fits, hop]
  exact .cons hn .nil

/-! ### Names -/

namespace Running

/-- The names that the compiler knows are those that the evaluation knows. -/
structure Tracks (R : Running S) (scope : List String) (st : CompilerState) : Prop where
  sound : st.scopes.Sound
  scope : ∀ n, n ∈ scope ↔ st.scopes.current.Declares n
  main : R.activation = .main → st.scopes.outer = []
  inner : R.activation ≠ .main → st.scopes.outer ≠ []
  self : ∀ {self? captured n s}, R.activation = .call self? captured →
    st.scopes.current.symbols[n]? = some s → s.storage = .self → ∃ v, self? = some (n, v)
  own : ∀ {self? captured n v}, R.activation = .call self? captured → self? = some (n, v) →
    ∃ s, st.scopes.current.symbols[n]? = some s ∧ (s.IsSlot ∨ s.storage = .self)
  captured : ∀ {self? captured n v}, R.activation = .call self? captured →
    captured.lookup n = some v → Scopes.HasVariable st.scopes.outer n

theorem Tracks.advance {scope declared mentioned : List String} {st st₁ : CompilerState}
    (h : R.Tracks scope st) (hadvances : Advances declared mentioned st st₁) :
    R.Tracks (scope ++ declared) st₁ where
  sound := hadvances.sound
  scope n := by
    rw [List.mem_append, h.scope, hadvances.scopes.current.declares_iff]
  main hmain := by
    have houter := hadvances.scopes.outer
    rw [h.main hmain] at houter
    exact houter.eq_nil
  inner hcall := hadvances.scopes.outer.ne_nil (h.inner hcall)
  self hcall hs hself := h.self hcall (hadvances.scopes.current.entry_of_self hs hself) hself
  own hcall hself := by
    obtain ⟨s, hs, hkind⟩ := h.own hcall hself
    rcases hadvances.scopes.current.self_or_declares hs with hs | ⟨s, hs, hslot⟩
    · exact ⟨s, hs, hkind⟩
    · exact ⟨s, hs, .inl hslot⟩
  captured hcall hlookup := hadvances.scopes.outer.hasVariable (h.captured hcall hlookup)

/-- A symbol that is no slot is not one of a declared name. -/
theorem Tracks.notMem_of_entry {scope : List String} {st : CompilerState} {name : String}
    {s : Symbol} (h : R.Tracks scope st) (hentry : st.scopes.current.symbols[name]? = some s)
    (hs : ¬ s.IsSlot) : name ∉ scope := by
  intro hmem
  obtain ⟨s', hs', hslot⟩ := (h.scope name).mp hmem
  rw [hentry] at hs'
  cases hs'
  exact hs hslot

end Running

/-- The instruction that loads a symbol pushes the value of a name. -/
def Denotes (R : Running S) (scope : List String) (name : String) (s : Symbol) : Prop :=
  ∀ ⦃σ : Store⦄ ⦃temps : List Value⦄ ⦃m : Machine Console Value⦄ ⦃code : Fragment⦄ ⦃span : Span⦄,
    At R σ code.stop temps m → Fragment.Holds R.bytes code (Compile.load s span code) →
    ∃ v : Value, Comes S (At R σ (Compile.load s span code).stop (temps ++ [v])) m ∧
      Meaning.valueOf R.activation scope σ name = v.surface ∧
      (s.IsVariable → Meaning.variableOf? R.activation scope σ name = some v.surface)

theorem Meaning.valueOf_of_variableOf? {activation : Activation} {scope : List String} {σ : Store}
    {name : String} {v : Value} (h : variableOf? activation scope σ name = some v) :
    valueOf activation scope σ name = v := by
  rw [valueOf, h]

theorem Meaning.variableOf?_self {scope : List String} {name : String} (hscope : name ∉ scope)
    (v : Value) (captured : List (String × Value)) (σ : Store) :
    variableOf? (.call (some (name, v)) captured) scope σ name = some v := by
  simp [variableOf?, hscope]

theorem Meaning.variableOf?_captured {scope : List String} {name : String}
    {self? : Option (String × Value)} (hscope : name ∉ scope)
    (hself : ∀ n v, self? = some (n, v) → n ≠ name) (captured : List (String × Value)) (σ : Store) :
    variableOf? (.call self? captured) scope σ name = captured.lookup name := by
  cases self? with
  | none => simp [variableOf?, hscope]
  | some self =>
    obtain ⟨n, v⟩ := self
    simp [variableOf?, hscope, hself n v rfl]

section

variable {scope : List String} {name : String} {s : Symbol} {st : CompilerState}
  {self? : Option (String × Value)} {captured : List (String × Value)}

/-- What is pushed for a name, once the instruction that pushes it is known. -/
theorem denotes_of_push (op : Opcode) (operands : List Nat)
    (hload : ∀ (code : Fragment) span, Compile.load s span code = code.emit op operands span)
    (hfits : Instruction.Fits ⟨op, operands⟩)
    (hpush : ∀ {σ ip temps m m₁}, Fetched R σ ⟨op, operands⟩ ip temps m m₁ →
      ∃ v : Value, Machine.turn nativeHost m = Machine.pushing m₁ v ∧ Known S σ v ∧
        Meaning.valueOf R.activation scope σ name = v.surface ∧
        (s.IsVariable → Meaning.variableOf? R.activation scope σ name = some v.surface)) :
    Denotes R scope name s := by
  intro σ temps m code span hat hholds
  rw [hload] at hholds ⊢
  obtain ⟨m₁, hfetched⟩ := hat.fetch hfits hholds
  obtain ⟨ip₀, hip, hframes⟩ := hfetched.frames
  obtain ⟨v, hturn, hknown, hvalue⟩ := hpush hfetched
  exact ⟨v, hfetched.at_.push hframes hip hturn hknown hfetched.height, hvalue⟩

theorem denotes_local (htracks : R.Tracks scope st) (hwithin : st.Within S R.table)
    (hactivation : R.activation = .call self? captured)
    (hentry : st.scopes.current.symbols[name]? = some s) (hs : s.storage = .localSlot) :
    Denotes R scope name s := by
  obtain ⟨declared, hgrows⟩ := hwithin.table
  obtain ⟨-, hcalled⟩ := R.called hactivation
  have htable := hgrows.entry hentry (by simp [hs])
  have hindex : s.index < 256 :=
    Nat.lt_of_lt_of_le (R.sound.slot_lt htable (.inr hs)) hcalled.locals_le
  refine denotes_of_push .getLocal [s.index] (fun code span => by simp [Compile.load, hs])
    (Instruction.fits_narrow rfl hindex) fun {σ ip temps m m₁} hfetched => ?_
  obtain ⟨stack, hstack, hlocals⟩ := hfetched.at_.stack
  obtain ⟨v, hv, hvalue⟩ := hlocals.value htable hs
  have hget : m₁.stack[R.below.length + s.index]? = some v := by
    rw [hstack]
    simp only [List.getElem?_toArray, List.append_assoc]
    rw [List.getElem?_append_right (by omega), Nat.add_sub_cancel_left,
      List.getElem?_append_left (List.getElem?_eq_some_iff.mp hv).1, hv]
  have hvar : Meaning.variableOf? R.activation scope σ name = some v.surface := by
    have hscope : name ∈ scope := (htracks.scope name).mpr ⟨s, hentry, .inr hs⟩
    simp [hactivation, Meaning.variableOf?, hscope, hvalue]
  exact ⟨v, Machine.turn_getLocal hfetched.fetches hfetched.at_.frames hget,
    hlocals.known v (List.mem_of_getElem? hv), Meaning.valueOf_of_variableOf? hvar, fun _ => hvar⟩

theorem denotes_captured (htracks : R.Tracks scope st) (hwithin : st.Within S R.table)
    (hactivation : R.activation = .call self? captured)
    (hentry : st.scopes.current.symbols[name]? = some s) (hs : s.storage = .captured) :
    Denotes R scope name s := by
  obtain ⟨declared, hgrows⟩ := hwithin.table
  obtain ⟨-, hcalled⟩ := R.called hactivation
  have htable := hgrows.entry hentry (by simp [hs])
  obtain ⟨c, hc, hname⟩ := R.sound.captured htable hs
  rw [← Array.getElem?_toList] at hc
  have hlt := (List.getElem?_eq_some_iff.mp hc).1
  have hindex : s.index < 256 := by
    have : R.table.captures.toList.length ≤ 255 := hcalled.captures_le
    omega
  -- the captured values stand in the order in which the table lists the captures
  obtain ⟨v, hv, hlookup⟩ : ∃ v, R.closure.free[s.index]? = some v ∧
      captured.lookup name = some v.surface := by
    have hlt' : s.index < R.closure.free.length := hcalled.values.length_eq ▸ hlt
    refine ⟨_, List.getElem?_eq_getElem hlt', ?_⟩
    have := hcalled.values.get hlt hlt'
    rw [← hname]
    rw [List.getElem?_eq_getElem hlt] at hc
    cases hc
    exact this
  refine denotes_of_push .getFree [s.index] (fun code span => by simp [Compile.load, hs])
    (Instruction.fits_narrow rfl hindex) fun {σ ip temps m m₁} hfetched => ?_
  have hself : Known S σ R.self := hfetched.at_.self (by simp [hactivation])
  have hvar : Meaning.variableOf? R.activation scope σ name = some v.surface := by
    have hscope : name ∉ scope := htracks.notMem_of_entry hentry (Symbol.not_isSlot (.inl hs))
    -- the function's own name is never captured
    have hown : ∀ n w, self? = some (n, w) → n ≠ name := by
      rintro n w hself' rfl
      obtain ⟨s', hs', hkind⟩ := htracks.own hactivation hself'
      rw [hentry] at hs'
      cases hs'
      rcases hkind with (hkind | hkind) | hkind <;> rw [hs] at hkind <;> cases hkind
    rw [hactivation, Meaning.variableOf?_captured hscope hown, hlookup]
  exact ⟨v, Machine.turn_getFree hfetched.fetches hfetched.at_.frames hv,
    (Value.every_closure.mp hself).2 v (List.mem_of_getElem? hv),
    Meaning.valueOf_of_variableOf? hvar, fun _ => hvar⟩

theorem denotes_self (htracks : R.Tracks scope st)
    (hactivation : R.activation = .call self? captured)
    (hentry : st.scopes.current.symbols[name]? = some s) (hs : s.storage = .self) :
    Denotes R scope name s := by
  obtain ⟨-, hcalled⟩ := R.called hactivation
  obtain ⟨w, hself⟩ := htracks.self hactivation hentry hs
  refine denotes_of_push .currentClosure [] (fun code span => by simp [Compile.load, hs])
    (Instruction.fits_nil rfl) fun {σ ip temps m m₁} hfetched => ?_
  have hvar : Meaning.variableOf? R.activation scope σ name = some R.self.surface := by
    have hscope : name ∉ scope :=
      htracks.notMem_of_entry hentry (Symbol.not_isSlot (.inr (.inl hs)))
    rw [hactivation, hself, Meaning.variableOf?_self hscope]
    exact congrArg some (hcalled.self name w hself)
  exact ⟨R.self, Machine.turn_currentClosure hfetched.fetches hfetched.at_.frames,
    hfetched.at_.self (by simp [hactivation]), Meaning.valueOf_of_variableOf? hvar, fun _ => hvar⟩

/-- A variable of the running function is loaded from its slot, from the captured values, or as
the running closure. -/
theorem denotes_variable (htracks : R.Tracks scope st) (hwithin : st.Within S R.table)
    (hentry : st.scopes.current.symbols[name]? = some s) (hvariable : s.IsVariable) :
    Denotes R scope name s := by
  cases hactivation : R.activation with
  | main =>
    -- the root has no variables
    have hroot := htracks.sound.isRoot
    rw [htracks.main hactivation] at hroot
    rcases hroot.storage hentry with ⟨hs, -⟩ | ⟨hs, -⟩ <;>
      simp [Symbol.IsVariable, hs] at hvariable
  | call self? captured =>
    rcases hvariable with hs | hs | hs
    · exact denotes_local htracks hwithin hactivation hentry hs
    · exact denotes_captured htracks hwithin hactivation hentry hs
    · exact denotes_self htracks hactivation hentry hs

/-- What is no variable of any function around is no variable of the evaluation. -/
theorem variableOf?_eq_none (htracks : R.Tracks scope st)
    (hfree : ¬ Scopes.HasVariable (st.scopes.current :: st.scopes.outer) name) (σ : Store) :
    Meaning.variableOf? R.activation scope σ name = none := by
  cases hactivation : R.activation with
  | main => rfl
  | call self? captured =>
    have hinner := htracks.inner (by simp [hactivation])
    have hcaptured := fun v => htracks.captured (n := name) (v := v) hactivation
    obtain ⟨next, outer, houter⟩ := List.exists_cons_of_ne_nil hinner
    rw [houter] at hfree hcaptured
    have hbinds : ¬ st.scopes.current.Binds name := fun h => hfree (.inl h)
    have hscope : name ∉ scope := by
      intro hmem
      obtain ⟨s', hs', -⟩ := (htracks.scope name).mp hmem
      exact hbinds ⟨s', hs'⟩
    have hown : ∀ n v, self? = some (n, v) → n ≠ name := by
      rintro n v hself rfl
      obtain ⟨s', hs', -⟩ := htracks.own hactivation hself
      exact hbinds ⟨s', hs'⟩
    rw [Meaning.variableOf?_captured hscope hown]
    cases hv : captured.lookup name with
    | none => rfl
    | some v => exact absurd (.inr (hcaptured v hv)) hfree

/-- A global or a built-in function. -/
theorem denotes_global (hroot : S.root.symbols[name]? = some s)
    (hvariable : ∀ σ, Meaning.variableOf? R.activation scope σ name = none) :
    Denotes R scope name s := by
  rcases S.isRoot.storage hroot with ⟨hs, hbuiltin⟩ | ⟨hs, b, hindex, hbuiltin⟩
  · have hindex : s.index < 65536 :=
      Nat.lt_of_lt_of_le (S.sound.slot_lt hroot (.inl hs)) S.limit
    refine denotes_of_push .getGlobal [s.index] (fun code span => by simp [Compile.load, hs])
      (Instruction.fits_wide rfl hindex) fun {σ ip temps m m₁} hfetched => ?_
    refine ⟨_, Machine.turn_getGlobal hfetched.fetches,
      hfetched.at_.world.known_globals s.index, ?_, fun h => ?_⟩
    · rw [Meaning.valueOf, hvariable, hbuiltin]
      exact (hfetched.at_.world.globals hroot hs).symm
    · simp [Symbol.IsVariable, hs] at h
  · have hlt : s.index < 256 := by
      have := (Array.getElem?_eq_some_iff.mp hindex).1
      exact Nat.lt_of_lt_of_le this (by decide)
    refine denotes_of_push .getBuiltin [s.index] (fun code span => by simp [Compile.load, hs])
      (Instruction.fits_narrow rfl hlt) fun {σ ip temps m m₁} hfetched => ?_
    refine ⟨_, Machine.turn_getBuiltin hfetched.fetches hindex, trivial, ?_, fun h => ?_⟩
    · rw [Meaning.valueOf, hvariable, hbuiltin]
      rfl
    · simp [Symbol.IsVariable, hs] at h

/-- The symbol that the compiler finds for a name has the value of the name. -/
theorem denotes_resolve {st₁ : CompilerState} {span : Span} (htracks : R.Tracks scope st)
    (hwithin : st₁.Within S R.table) (h : (Compile.resolve name span).run st = .ok (s, st₁)) :
    Denotes R scope name s := by
  have hadvances := Compile.advances_resolve h htracks.sound
  obtain ⟨scopes, hresolve, rfl⟩ := Compile.withScopes_ok.mp h
  obtain ⟨-, -, hfound⟩ := Scopes.resolve_spec htracks.sound hresolve
  have htracks' := htracks.advance hadvances
  rw [List.append_nil] at htracks'
  rcases hfound with ⟨hs, hentry⟩ | ⟨hroot, hfree⟩
  · exact denotes_variable htracks' hwithin hentry hs
  · obtain ⟨declared, hgrows⟩ := hwithin.root
    refine denotes_global (hgrows.entry hroot ?_) (variableOf?_eq_none htracks hfree)
    rcases htracks'.sound.isRoot.storage hroot with ⟨hs, -⟩ | ⟨hs, -⟩ <;> simp [hs]

end

end Bytescript
