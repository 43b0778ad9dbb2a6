/-
How tables of names give out their numbers.

A declaration takes the next slot of its table, and a capture the next place in the table's list of
captures. One map holds the entries of both, besides built-in functions and the name of the function
itself, and looking a name up adds entries to tables further out.

* `ScopeTable.Numbered` — the slots of a table are numbered without gaps, and so are its captures;
* `ScopeTable.Allocated` — what holds of a table with the tables around it;
* `Scopes.slots_allocated` — the main statement, for all chains that can be built; it also says that
  a declaration that is refused has changed nothing.

Design notes: what a table has numbered does not depend on the tables around it, and every operation
adds one number at most. What a captured entry stands for was shown for `Scopes.Chained`. Declaring
a name is written as a sequence of changes once more, since a function that gives either a new chain
or an error cannot say what an error leaves behind.
-/
import Bytescript.Proofs.Resolution

namespace Bytescript

namespace ScopeTable

/-! ### One table -/

/-- The name has the slot `i` of the table. -/
def HasSlot (t : ScopeTable) (name : String) (i : Nat) : Prop :=
  ∃ s, t.symbols[name]? = some s ∧ s.IsSlot ∧ s.index = i

/-- Slots and captures are numbered, each without gaps and without repetition. -/
structure Numbered (t : ScopeTable) : Prop extends Sound t where
  filled : ∀ {i : Nat}, i < t.definitions → ∃ name, t.HasSlot name i

/-- What holds of a table with the tables `outside` around it. If `ownOnly` holds, captured entries
have the number of parameters of what they stand for. -/
structure Allocated (ownOnly : Prop) (t : ScopeTable) (outside : List ScopeTable) : Prop where
  /-- The slots of a table are the numbers below that of its declarations. -/
  slots : ∀ i, i < t.definitions ↔ ∃ name, t.HasSlot name i
  slot_unique : ∀ {name name' : String} {i : Nat}, t.HasSlot name i → t.HasSlot name' i →
    name = name'
  /-- A captured entry has its place among the captures of the table. -/
  captured : ∀ {name : String} {s : Symbol}, t.symbols[name]? = some s → s.storage = .captured →
    ∃ c, t.captures[s.index]? = some c ∧ c.name = name
  /-- A capture has its entry, with its number. -/
  captures : ∀ {j : Nat} {c : Symbol}, t.captures[j]? = some c →
    ∃ s, t.symbols[c.name]? = some s ∧ s.storage = .captured ∧ s.index = j ∧ s.name = c.name ∧
      s.mutability = c.mutability ∧ (ownOnly → s.arity? = c.arity?)
  /-- A capture is a variable of the next table. -/
  linked : ∀ {j : Nat} {c : Symbol}, t.captures[j]? = some c →
    c.IsVariable ∧ ∃ next rest, outside = next :: rest ∧ next.symbols[c.name]? = some c
  root : outside = [] → ∀ {name : String} {s : Symbol}, t.symbols[name]? = some s →
    s.storage ≠ .captured

section

variable {t t₁ : ScopeTable} {s c : Symbol} {name : String} {i : Nat}

/-- A name with a slot keeps it as long as its entry stays. -/
theorem HasSlot.of_entry (h : t.HasSlot name i) (hentry : t₁.symbols[name]? = t.symbols[name]?) :
    t₁.HasSlot name i := by
  obtain ⟨s, hs, hslot⟩ := h
  exact ⟨s, hentry.trans hs, hslot⟩

theorem Declared.numbered (h : Declared s t t₁) (ht : t.Numbered) : t₁.Numbered where
  toSound := h.sound ht.toSound
  filled {i} hi := by
    by_cases hlast : i = t.definitions
    · exact ⟨s.name, s, by rw [h.symbols, if_pos rfl], h.isSlot, h.index.trans hlast.symm⟩
    · rw [h.definitions] at hi
      obtain ⟨name, hslot⟩ := ht.filled (show i < t.definitions by omega)
      refine ⟨name, hslot.of_entry ?_⟩
      rw [h.symbols, if_neg]
      -- only the name of the function itself is declared over, and it has no slot
      rintro rfl
      obtain ⟨old, hold, hslot, -⟩ := hslot
      exact Symbol.not_isSlot (.inr (.inl (h.free old hold))) hslot

theorem Numbered.capture (ht : t.Numbered) (hfree : ¬ t.Binds c.name) :
    (t.capture c).2.Numbered where
  toSound := sound_capture ht.toSound hfree
  filled {i} hi := by
    obtain ⟨name, hslot⟩ := ht.filled hi
    refine ⟨name, hslot.of_entry ?_⟩
    rw [symbols_capture, if_neg]
    rintro rfl
    obtain ⟨s, hs, -⟩ := hslot
    exact hfree ⟨s, hs⟩

theorem Numbered.widens (ht : t.Numbered) (h : Widens name t t₁) : t₁.Numbered := by
  cases h with
  | same => exact ht
  | capture hname hfree => exact ht.capture (hname ▸ hfree)

/-- The entry of the name `n` after a number of parameters was recorded for `name`. -/
def recorded (name : String) (arity : Nat) (n : String) (s : Symbol) : Symbol :=
  if name = n then { s with arity? := some arity } else s

section

variable (name : String) (arity : Nat) (n : String) (s : Symbol)

@[simp]
theorem name_recorded : (recorded name arity n s).name = s.name := by
  rw [recorded]
  split <;> rfl

@[simp]
theorem storage_recorded : (recorded name arity n s).storage = s.storage := by
  rw [recorded]
  split <;> rfl

@[simp]
theorem index_recorded : (recorded name arity n s).index = s.index := by
  rw [recorded]
  split <;> rfl

theorem isSlot_recorded : (recorded name arity n s).IsSlot ↔ s.IsSlot := by
  rw [Symbol.IsSlot, storage_recorded, Symbol.IsSlot]

theorem symbols_recordArity (t : ScopeTable) :
    (t.recordArity name arity).symbols[n]? = t.symbols[n]?.map (recorded name arity n) := by
  by_cases hn : name = n
  · subst hn
    cases hs : t.symbols[name]? with
    | none => simp [recordArity, hs]
    | some s => simp [recordArity, hs, recorded]
  · have hsame : recorded name arity n = id := by
      funext s
      simp [recorded, hn]
    rw [hsame, Option.map_id_fun, id]
    cases hs : t.symbols[name]? with
    | none => simp [recordArity, hs]
    | some s => simp [recordArity, hs, Std.TreeMap.getElem?_insert, hn]

theorem captures_recordArity (t : ScopeTable) :
    (t.recordArity name arity).captures = t.captures := by
  rw [recordArity]
  split <;> rfl

theorem definitions_recordArity (t : ScopeTable) :
    (t.recordArity name arity).definitions = t.definitions := by
  rw [recordArity]
  split <;> rfl

end

/-- A number of parameters has nothing to do with slots and captures. -/
theorem Numbered.recordArity (ht : t.Numbered) (name : String) (arity : Nat) :
    (t.recordArity name arity).Numbered := by
  -- every entry comes from one that differs in the number of parameters at most
  have hentry : ∀ {n : String} {s : Symbol}, (t.recordArity name arity).symbols[n]? = some s →
      ∃ s₀, t.symbols[n]? = some s₀ ∧ recorded name arity n s₀ = s := by
    intro n s hs
    rwa [symbols_recordArity, Option.map_eq_some_iff] at hs
  refine ⟨⟨?_, ?_, ?_, ?_, ?_⟩, ?_⟩
  · intro n s hs
    obtain ⟨s₀, hs₀, rfl⟩ := hentry hs
    rw [name_recorded, ht.name hs₀]
  · intro n s hs hslot
    obtain ⟨s₀, hs₀, rfl⟩ := hentry hs
    rw [isSlot_recorded] at hslot
    rw [index_recorded, definitions_recordArity]
    exact ht.slot_lt hs₀ hslot
  · intro n n' s s' hs hs' hslot hslot' hindex
    obtain ⟨s₀, hs₀, rfl⟩ := hentry hs
    obtain ⟨s₀', hs₀', rfl⟩ := hentry hs'
    rw [isSlot_recorded] at hslot hslot'
    rw [index_recorded, index_recorded] at hindex
    exact ht.slot_unique hs₀ hs₀' hslot hslot' hindex
  · intro n s hs hcaptured
    obtain ⟨s₀, hs₀, rfl⟩ := hentry hs
    rw [storage_recorded] at hcaptured
    rw [index_recorded, captures_recordArity]
    exact ht.captured hs₀ hcaptured
  · intro j c hc
    rw [captures_recordArity] at hc
    obtain ⟨s, hs, hcaptured, hindex⟩ := ht.captures hc
    exact ⟨recorded name arity c.name s, by rw [symbols_recordArity, hs, Option.map_some],
      by rw [storage_recorded, hcaptured], by rw [index_recorded, hindex]⟩
  · intro i hi
    rw [definitions_recordArity] at hi
    obtain ⟨n, s, hs, hslot, hindex⟩ := ht.filled hi
    exact ⟨n, recorded name arity n s, by rw [symbols_recordArity, hs, Option.map_some],
      (isSlot_recorded name arity n s).mpr hslot, by rw [index_recorded, hindex]⟩

/-! ### Tables without numbers -/

/-- Nothing is declared or captured yet. -/
structure Unnumbered (t : ScopeTable) : Prop where
  name : ∀ {n : String} {s : Symbol}, t.symbols[n]? = some s → s.name = n
  storage : ∀ {n : String} {s : Symbol}, t.symbols[n]? = some s →
    s.storage = .self ∨ s.storage = .builtin
  definitions : t.definitions = 0
  captures : t.captures = #[]

theorem unnumbered_empty : Unnumbered {} := by
  constructor <;> simp

namespace Unnumbered

theorem insert (h : Unnumbered t) (hs : s.storage = .self ∨ s.storage = .builtin) :
    Unnumbered (t.insert s) where
  name hs' := by
    rw [symbols_insert] at hs'
    split at hs'
    · next hn =>
      cases hs'
      exact hn
    · exact h.name hs'
  storage hs' := by
    rw [symbols_insert] at hs'
    split at hs'
    · cases hs'
      exact hs
    · exact h.storage hs'
  definitions := h.definitions
  captures := h.captures

theorem numbered (h : Unnumbered t) : t.Numbered := by
  have hslot : ∀ {n : String} {s : Symbol}, t.symbols[n]? = some s → ¬ s.IsSlot :=
    fun hs => Symbol.not_isSlot (.inr (h.storage hs))
  have hdefinitions := h.definitions
  have hcaptures := h.captures
  refine ⟨⟨h.name, fun hs hisSlot => absurd hisSlot (hslot hs), ?_, ?_, ?_⟩, ?_⟩
  · intro n n' s s' hs _ hisSlot
    exact absurd hisSlot (hslot hs)
  · intro n s hs hcaptured
    have hstorage := h.storage hs
    rw [hcaptured] at hstorage
    simp at hstorage
  · intro j c hc
    rw [hcaptures] at hc
    simp at hc
  · intro i hi
    omega

end Unnumbered

theorem unnumbered_ofBuiltins (names : List String) : Unnumbered (.ofBuiltins names) :=
  ofBuiltins_induction unnumbered_empty (fun _ _ hbuiltin ht => ht.insert (.inr hbuiltin)) names

end

end ScopeTable

namespace Scopes

/-! ### All chains -/

/-- The tables that a name passes through keep their numbers in order. -/
theorem numbered_of_widens {name : String} {inner inner' : List ScopeTable}
    (h : List.Forall₂ (ScopeTable.Widens name) inner inner') (hinner : ∀ t ∈ inner, t.Numbered) :
    ∀ t ∈ inner', t.Numbered := by
  induction h with
  | nil => exact hinner
  | cons hwidens _ ih =>
    obtain ⟨ht, hrest⟩ := List.forall_mem_cons.mp hinner
    exact List.forall_mem_cons.mpr ⟨ht.widens hwidens, ih hrest⟩

/-- Every table of a chain has its numbers in order. -/
theorem Built.numbered {ownOnly : Prop} {scopes : Scopes} (h : Built ownOnly scopes) :
    ∀ t ∈ scopes.tables, t.Numbered := by
  induction h with
  | root names =>
    exact List.forall_mem_singleton.mpr (ScopeTable.unnumbered_ofBuiltins names).numbered
  | enter _ ih => exact List.forall_mem_cons.mpr ⟨ScopeTable.unnumbered_empty.numbered, ih⟩
  | enterNamed name arity _ ih =>
    exact List.forall_mem_cons.mpr
      ⟨(ScopeTable.unnumbered_empty.insert (.inl rfl)).numbered, ih⟩
  | define _ hdefine ih =>
    obtain ⟨-, t, hdeclared, rfl⟩ := define_ok hdefine
    obtain ⟨hcurrent, houter⟩ := List.forall_mem_cons.mp ih
    exact List.forall_mem_cons.mpr ⟨hdeclared.numbered hcurrent, houter⟩
  | recordArity name arity _ _ ih =>
    obtain ⟨hcurrent, houter⟩ := List.forall_mem_cons.mp ih
    exact List.forall_mem_cons.mpr ⟨hcurrent.recordArity name arity, houter⟩
  | @resolve scopes scopes' name s hbuilt hresolve ih =>
    obtain ⟨inner, inner', owner, outside, own, hresolution⟩ :=
      (hbuilt.chained.found (resolve_eq_ok_iff.mp hresolve)).resolution
    have hbefore : scopes.tables = inner ++ owner :: outside := hresolution.before_eq
    have hafter : scopes'.tables = inner' ++ owner :: outside := hresolution.after_eq
    -- only the tables inside the owner change
    rw [hbefore, List.forall_mem_append] at ih
    rw [hafter, List.forall_mem_append]
    exact ⟨numbered_of_widens hresolution.widens ih.1, ih.2⟩
  | @leave scopes scopes' _ hleave ih =>
    obtain ⟨current, _ | ⟨next, outer⟩⟩ := scopes
    · cases hleave
    · cases hleave
      exact (List.forall_mem_cons.mp ih).2

section

variable {ownOnly : Prop} {t u : ScopeTable} {outer inner outside : List ScopeTable} {s : Symbol}

/-- Every part of a chain is a chain. -/
theorem Chained.of_append (h : Chained ownOnly t outer)
    (hsplit : t :: outer = inner ++ u :: outside) : Chained ownOnly u outside := by
  induction h generalizing inner with
  | root hentries =>
    rcases inner with _ | ⟨t', rest⟩
    · cases hsplit
      exact .root hentries
    · simp at hsplit
  | inner hinside hnext ih =>
    rcases inner with _ | ⟨t', rest⟩
    · cases hsplit
      exact .inner hinside hnext
    · exact ih (List.cons.inj hsplit).2

/-- A captured entry stands for an entry of the next table, and the root has none. -/
theorem Chained.stands {name : String} (h : Chained ownOnly t outside)
    (hs : t.symbols[name]? = some s) (hcaptured : s.storage = .captured) :
    ∃ next rest c, outside = next :: rest ∧ next.symbols[name]? = some c ∧
      t.Stands ownOnly s c := by
  cases h with
  | root hentries =>
    rcases (hentries name s hs).2 with hstorage | hstorage <;> rw [hcaptured] at hstorage <;>
      cases hstorage
  | @inner _ next rest hinside _ =>
    rcases (hinside name s hs).2 with hlocal | hself | ⟨c, hc, hstands⟩
    · rw [hcaptured] at hlocal
      cases hlocal
    · rw [hcaptured] at hself
      cases hself
    · exact ⟨next, rest, c, rfl, hc, hstands⟩

/-- A capture is an entry of the next table, and an entry of the table itself stands for it. -/
theorem Chained.stands_of_capture {j : Nat} {c : Symbol} (h : Chained ownOnly t outside)
    (ht : t.Numbered) (hc : t.captures[j]? = some c) :
    ∃ s next rest, t.symbols[c.name]? = some s ∧ s.index = j ∧ t.Stands ownOnly s c ∧
      outside = next :: rest ∧ next.symbols[c.name]? = some c := by
  obtain ⟨s, hs, hcaptured, rfl⟩ := ht.captures hc
  obtain ⟨next, rest, c', houtside, hc', hstands⟩ := h.stands hs hcaptured
  obtain rfl : c' = c := Option.some.inj (hstands.capture.symm.trans hc)
  exact ⟨s, next, rest, hs, rfl, hstands, houtside, hc'⟩

theorem Chained.allocated (h : Chained ownOnly t outside) (ht : t.Numbered) :
    t.Allocated ownOnly outside where
  slots i := by
    constructor
    · exact ht.filled
    · rintro ⟨name, s, hs, hslot, rfl⟩
      exact ht.slot_lt hs hslot
  slot_unique := by
    rintro name name' i ⟨s, hs, hslot, rfl⟩ ⟨s', hs', hslot', hindex⟩
    exact ht.slot_unique hs hs' hslot hslot' hindex.symm
  captured := ht.captured
  captures := by
    intro j c hc
    obtain ⟨s, next, rest, hs, hindex, hstands, -⟩ := h.stands_of_capture ht hc
    exact ⟨s, hs, hstands.storage, hindex, ht.name hs, hstands.mutability, hstands.arity⟩
  linked := by
    intro j c hc
    obtain ⟨s, next, rest, -, -, hstands, houtside, hnext⟩ := h.stands_of_capture ht hc
    exact ⟨hstands.isVariable, next, rest, houtside, hnext⟩
  root := by
    intro hroot name s hs hcaptured
    obtain ⟨next, rest, c, houtside, -⟩ := h.stands hs hcaptured
    rw [hroot] at houtside
    cases houtside

end

/-! ### Declarations that are refused -/

/-- Declaring a name, one change of the chain after the other. -/
def declare (name : String) (mutability : Mutability) :
    ExceptT ScopeError (StateM Scopes) Symbol := do
  let scopes ← get
  if scopes.current.isDeclarable name then
    let symbol : Symbol :=
      ⟨name, scopes.slotStorage, scopes.current.definitions, mutability, none⟩
    modify fun scopes => { scopes with current := scopes.current.insert symbol }
    modify fun scopes =>
      { scopes with
        current := { scopes.current with definitions := scopes.current.definitions + 1 } }
    return symbol
  else throw (.redeclared name)

/-- A new declaration and the chain with it. -/
def declaration (scopes : Scopes) (name : String) (mutability : Mutability) : Symbol × Scopes :=
  let symbol : Symbol :=
    ⟨name, scopes.slotStorage, scopes.current.definitions, mutability, none⟩
  let table := scopes.current.insert symbol
  (symbol, { scopes with current := { table with definitions := table.definitions + 1 } })

section

variable (scopes : Scopes) (name : String) (mutability : Mutability)

theorem define_eq :
    scopes.define name mutability =
      if scopes.current.isDeclarable name then .ok (scopes.declaration name mutability)
      else .error (.redeclared name) := by
  rw [define, ScopeTable.define]
  split <;> rfl

theorem run_get_bind {α : Type} (f : Scopes → ExceptT ScopeError (StateM Scopes) α) :
    ((get >>= f).run.run scopes).run = ((f scopes).run.run scopes).run :=
  rfl

theorem run_declare :
    ((declare name mutability).run.run scopes).run =
      if scopes.current.isDeclarable name then
        (.ok (scopes.declaration name mutability).1, (scopes.declaration name mutability).2)
      else (.error (.redeclared name), scopes) := by
  rw [declare, run_get_bind]
  split <;> rfl

theorem isDeclarable_eq_false_iff (t : ScopeTable) :
    t.isDeclarable name = false ↔ ∃ s, t.symbols[name]? = some s ∧ s.storage ≠ .self := by
  cases hs : t.symbols[name]? <;> simp [ScopeTable.isDeclarable, hs]

end

/-! ### The invariant -/

/-- Slots and captures of all tables are numbered in order. A declaration is refused exactly for a
name that the current table has already, other than as that of the function itself, and then no
table changes. -/
theorem slots_allocated {ownOnly : Prop} {scopes : Scopes} (h : Built ownOnly scopes) :
    (∀ inner t outside, scopes.tables = inner ++ t :: outside → t.Allocated ownOnly outside) ∧
      ∀ name mutability,
        (scopes.define name mutability = .error (.redeclared name) ↔
          ∃ s, scopes.current.symbols[name]? = some s ∧ s.storage ≠ .self) ∧
        (∀ s after, ((declare name mutability).run.run scopes).run = (.ok s, after) ↔
          scopes.define name mutability = .ok (s, after)) ∧
        ∀ e after, ((declare name mutability).run.run scopes).run = (.error e, after) ↔
          scopes.define name mutability = .error e ∧ after = scopes := by
  constructor
  · intro inner t outside hsplit
    have ht : t.Numbered := h.numbered t (by simp [hsplit])
    exact (h.chained.of_append hsplit).allocated ht
  · intro name mutability
    rw [← isDeclarable_eq_false_iff, define_eq, run_declare]
    cases scopes.current.isDeclarable name with
    | true => simp [Prod.ext_iff]
    | false => simp [eq_comm]

/-- The name that the inner function has captured cannot be declared there. -/
theorem slots_allocated_exampleScopes :
    Built True exampleScopes ∧
      exampleInner.Allocated True [exampleOwner, .ofBuiltins ["len"]] ∧
      exampleOwner.Allocated True [.ofBuiltins ["len"]] ∧
      ((declare "x" .mutable).run.run exampleScopes).run =
        (.error (.redeclared "x"), exampleScopes) := by
  have hbuilt := built_exampleScopes True
  obtain ⟨htables, hdeclare⟩ := slots_allocated hbuilt
  obtain ⟨hrefused, -, hunchanged⟩ := hdeclare "x" .mutable
  have hdefine := hrefused.mpr ⟨_, rfl, by decide⟩
  exact ⟨hbuilt, htables [] _ _ rfl, htables [exampleInner] _ _ rfl,
    (hunchanged _ _).mpr ⟨hdefine, rfl⟩⟩

/-- If a number of parameters is recorded for a captured name, the entry need not agree with the
capture. -/
theorem not_allocated_of_recorded_capture :
    ¬ ∀ scopes, Built False scopes → ∀ inner t outside, scopes.tables = inner ++ t :: outside →
      t.Allocated True outside := by
  intro h
  have hbuilt := (built_exampleScopes False).recordArity "x" 3 False.elim
  have hinner := h _ hbuilt [] _ _ rfl
  have hcapture : (exampleInner.recordArity "x" 3).captures[0]? =
      some ⟨"x", .localSlot, 0, .mutable, some 2⟩ := rfl
  obtain ⟨s, hs, -, -, -, -, harity⟩ := hinner.captures hcapture
  have hentry : (exampleInner.recordArity "x" 3).symbols["x"]? =
      some ⟨"x", .captured, 0, .mutable, some 3⟩ := rfl
  obtain rfl := Option.some.inj (hentry.symm.trans hs)
  cases harity trivial

end Scopes

end Bytescript
