/-
Tables of names and how they grow.

While a tree is compiled, the table of the current function gains the names that the tree
declares, and all tables gain the names it captures. Nothing else changes.

* `ScopeTable.Grows` — the change of one table;
* `Scopes.Sound` — what every chain of tables satisfies: slots are given once, and captured names
  stand for symbols of the next outer table;
* `Scopes.resolve_spec` — a name is found in the current function, or it is no variable of any
  function around and stands in the root table;
* `Scopes.declare_spec`, `ScopeTable.Entered` — declarations, and the table with which the body
  of a function begins.

Design notes: a name that is captured passes through the tables from the inside to the outside,
so a table can only gain a name that no table inside it knows. `Captures` keeps track of that;
it is why the names captured by a function are among those its literal mentions.
-/
import Bytescript.Proofs.Meaning
import Bytescript.Scope

namespace Bytescript

/-- The value of the name stands in a slot. -/
def Symbol.IsSlot (s : Symbol) : Prop :=
  s.storage = .globalSlot ∨ s.storage = .localSlot

/-- The name is a variable of a function. -/
def Symbol.IsVariable (s : Symbol) : Prop :=
  s.storage = .localSlot ∨ s.storage = .captured ∨ s.storage = .self

/-- Only what is declared has a slot. -/
theorem Symbol.not_isSlot {s : Symbol}
    (h : s.storage = .captured ∨ s.storage = .self ∨ s.storage = .builtin) : ¬ s.IsSlot := by
  rintro (hs | hs) <;> simp [hs] at h

namespace ScopeTable

/-! ### One table -/

/-- The table has an entry for a name. -/
def Binds (t : ScopeTable) (name : String) : Prop :=
  ∃ s, t.symbols[name]? = some s

/-- The table has given a slot to a name. -/
def Declares (t : ScopeTable) (name : String) : Prop :=
  ∃ s, t.symbols[name]? = some s ∧ s.IsSlot

/-- Entries stand under their names, slots are given once, and the captured names are those that
the table lists as captures. -/
structure Sound (t : ScopeTable) : Prop where
  name : ∀ {n : String} {s : Symbol}, t.symbols[n]? = some s → s.name = n
  slot_lt : ∀ {n : String} {s : Symbol}, t.symbols[n]? = some s → s.IsSlot → s.index < t.definitions
  slot_unique : ∀ {n n' : String} {s s' : Symbol}, t.symbols[n]? = some s →
    t.symbols[n']? = some s' → s.IsSlot → s'.IsSlot → s.index = s'.index → n = n'
  captured : ∀ {n : String} {s : Symbol}, t.symbols[n]? = some s → s.storage = .captured →
    ∃ c, t.captures[s.index]? = some c ∧ c.name = n
  captures : ∀ {j : Nat} {c : Symbol}, t.captures[j]? = some c →
    ∃ s, t.symbols[c.name]? = some s ∧ s.storage = .captured ∧ s.index = j

/-- A root table: globals and all built-in functions. -/
structure IsRoot (t : ScopeTable) : Prop where
  storage : ∀ {n : String} {s : Symbol}, t.symbols[n]? = some s →
    (s.storage = .globalSlot ∧ Builtin.ofName? n = none) ∨
      (s.storage = .builtin ∧ ∃ b, Builtin.ofIndex? s.index = some b ∧ Builtin.ofName? n = some b)
  builtins : ∀ {n : String} {b : Builtin}, Builtin.ofName? n = some b → t.Binds n
  captures : t.captures = #[]

/-- The table of a function. -/
def IsInner (t : ScopeTable) : Prop :=
  ∀ {n : String} {s : Symbol}, t.symbols[n]? = some s → s.IsVariable

/-- How the entry of a name may change: a name that is mentioned may be captured, and a name that
is declared gets a slot. -/
inductive Change (declared : List String) (mentioned : String → Prop) (n : String) :
    Option Symbol → Option Symbol → Prop where
  | same (entry : Option Symbol) : Change declared mentioned n entry entry
  | captured {s : Symbol} : mentioned n → s.storage = .captured →
      Change declared mentioned n none (some s)
  | declared {entry : Option Symbol} {s : Symbol} : n ∈ declared →
      (∀ old, entry = some old → old.storage = .self) → s.IsSlot →
      Change declared mentioned n entry (some s)

/-- The table `t₁` is `t` with the names `declared` and captures of mentioned names. -/
structure Grows (declared : List String) (mentioned : String → Prop) (t t₁ : ScopeTable) :
    Prop where
  definitions : t₁.definitions = t.definitions + declared.length
  captures : t.captures.toList <+: t₁.captures.toList
  change : ∀ n, Change declared mentioned n t.symbols[n]? t₁.symbols[n]?
  declared : ∀ n ∈ declared, t₁.Declares n

namespace Change

variable {declared declared' : List String} {mentioned mentioned' : String → Prop} {n : String}
  {a b c : Option Symbol}

theorem mono (h : Change declared mentioned n a b) (hdeclared : n ∈ declared → n ∈ declared')
    (hmentioned : a = none → mentioned n → mentioned' n) : Change declared' mentioned' n a b := by
  cases h with
  | same => exact .same _
  | captured hn hs => exact .captured (hmentioned rfl hn) hs
  | declared hn hold hs => exact .declared (hdeclared hn) hold hs

theorem trans (h : Change declared mentioned n a b) (h' : Change declared mentioned n b c) :
    Change declared mentioned n a c := by
  cases h' with
  | same => exact h
  | captured hn hs =>
    -- the name had no entry in between, so it had none before
    cases h with
    | same => exact .captured hn hs
  | declared hn hold hs =>
    cases h with
    | same => exact .declared hn hold hs
    | captured _ hcaptured =>
      have := hold _ rfl
      rw [hcaptured] at this
      cases this
    | declared hn' hold' hs' => exact .declared hn hold' hs

end Change

namespace Grows

variable {declared declared' : List String} {mentioned mentioned' : String → Prop}
  {t t₁ t₂ : ScopeTable} {n : String} {s : Symbol}

protected theorem refl (mentioned : String → Prop) (t : ScopeTable) : t.Grows [] mentioned t where
  definitions := rfl
  captures := List.prefix_rfl
  change _ := .same _
  declared := by simp

/-- An entry stays, unless it is that of the function's own name. -/
theorem entry (h : t.Grows declared mentioned t₁) (hs : t.symbols[n]? = some s)
    (hself : s.storage ≠ .self) : t₁.symbols[n]? = some s := by
  have hchange := h.change n
  rw [hs] at hchange
  generalize t₁.symbols[n]? = entry at hchange
  cases hchange with
  | same => rfl
  | declared _ hold _ => exact absurd (hold s rfl) hself

/-- Where nothing is declared, entries stay. -/
theorem entry_of_nil (h : t.Grows [] mentioned t₁) (hs : t.symbols[n]? = some s) :
    t₁.symbols[n]? = some s := by
  have hchange := h.change n
  rw [hs] at hchange
  generalize t₁.symbols[n]? = entry at hchange
  cases hchange with
  | same => rfl
  | declared hn _ _ => simp at hn

theorem binds (h : t.Grows declared mentioned t₁) (hn : t.Binds n) : t₁.Binds n := by
  obtain ⟨s, hs⟩ := hn
  have hchange := h.change n
  rw [hs] at hchange
  generalize hentry : t₁.symbols[n]? = entry at hchange
  cases hchange with
  | same => exact ⟨s, hentry⟩
  | declared _ _ _ => exact ⟨_, hentry⟩

theorem declares (h : t.Grows declared mentioned t₁) (hn : t.Declares n) : t₁.Declares n := by
  obtain ⟨s, hs, hslot⟩ := hn
  refine ⟨s, h.entry hs ?_, hslot⟩
  rcases hslot with hslot | hslot <;> rw [hslot] <;> decide

/-- The names with slots are those that had one and those that were declared. -/
theorem declares_iff (h : t.Grows declared mentioned t₁) :
    t₁.Declares n ↔ t.Declares n ∨ n ∈ declared := by
  constructor
  · rintro ⟨s, hs, hslot⟩
    have hchange := h.change n
    rw [hs] at hchange
    generalize hentry : t.symbols[n]? = entry at hchange
    cases hchange with
    | same => exact .inl ⟨s, hentry, hslot⟩
    | captured _ hcaptured => exact absurd hslot (Symbol.not_isSlot (.inl hcaptured))
    | declared hn _ _ => exact .inr hn
  · rintro (hn | hn)
    · exact h.declares hn
    · exact h.declared n hn

theorem mono (h : t.Grows declared mentioned t₁) (hdeclared : declared.Perm declared')
    (hmentioned : ∀ n, ¬ t.Binds n → mentioned n → mentioned' n) :
    t.Grows declared' mentioned' t₁ where
  definitions := by rw [h.definitions, hdeclared.length_eq]
  captures := h.captures
  change n := (h.change n).mono hdeclared.mem_iff.mp fun hnone =>
    hmentioned n fun ⟨s, hs⟩ => by simp [hnone] at hs
  declared n hn := h.declared n (hdeclared.mem_iff.mpr hn)

protected theorem trans (h : t.Grows declared mentioned t₁)
    (h' : t₁.Grows declared' mentioned' t₂) :
    t.Grows (declared ++ declared') (fun n => mentioned n ∨ mentioned' n) t₂ where
  definitions := by rw [h'.definitions, h.definitions, List.length_append, Nat.add_assoc]
  captures := h.captures.trans h'.captures
  change n := ((h.change n).mono (List.mem_append_left _) fun _ => Or.inl).trans
    ((h'.change n).mono (List.mem_append_right _) fun _ => Or.inr)
  declared n hn := by
    rcases List.mem_append.mp hn with hn | hn
    · exact h'.declares (h.declared n hn)
    · exact h'.declared n hn

/-- A name that is captured in the end and was not before is mentioned. -/
theorem mentioned_of_captured (h : t.Grows declared mentioned t₁)
    (hs : t₁.symbols[n]? = some s) (hcaptured : s.storage = .captured) (hn : ¬ t.Binds n) :
    mentioned n := by
  have hchange := h.change n
  rw [hs] at hchange
  generalize hentry : t.symbols[n]? = entry at hchange
  cases hchange with
  | same => exact absurd ⟨s, hentry⟩ hn
  | captured hm _ => exact hm
  | declared _ _ hslot => exact absurd hslot (Symbol.not_isSlot (.inl hcaptured))

/-- The entry of the function's own name was there before. -/
theorem entry_of_self (h : t.Grows declared mentioned t₁) (hs : t₁.symbols[n]? = some s)
    (hself : s.storage = .self) : t.symbols[n]? = some s := by
  have hchange := h.change n
  rw [hs] at hchange
  generalize hentry : t.symbols[n]? = entry at hchange
  cases hchange with
  | same => rfl
  | captured _ hcaptured =>
    rw [hself] at hcaptured
    cases hcaptured
  | declared _ _ hslot => exact absurd hslot (Symbol.not_isSlot (.inr (.inl hself)))

/-- The entry of the function's own name stays until the name is declared. -/
theorem self_or_declares (h : t.Grows declared mentioned t₁) (hs : t.symbols[n]? = some s) :
    t₁.symbols[n]? = some s ∨ t₁.Declares n := by
  have hchange := h.change n
  rw [hs] at hchange
  generalize t₁.symbols[n]? = entry at hchange
  cases hchange with
  | same => exact .inl rfl
  | declared hn _ _ => exact .inr (h.declared n hn)

end Grows

/-! ### Declarations and captures -/

@[simp]
theorem symbols_insert (t : ScopeTable) (s : Symbol) (n : String) :
    (t.insert s).symbols[n]? = if s.name = n then some s else t.symbols[n]? := by
  rw [insert, Std.TreeMap.getElem?_insert]
  simp

/-- The table `t₁` is `t` with the next slot given to the name of `s`. -/
structure Declared (s : Symbol) (t t₁ : ScopeTable) : Prop where
  free : ∀ old, t.symbols[s.name]? = some old → old.storage = .self
  index : s.index = t.definitions
  isSlot : s.IsSlot
  symbols : ∀ n, t₁.symbols[n]? = if s.name = n then some s else t.symbols[n]?
  definitions : t₁.definitions = t.definitions + 1
  captures : t₁.captures = t.captures

namespace Declared

variable {t t₁ : ScopeTable} {s : Symbol}

theorem grows (h : Declared s t t₁) (mentioned : String → Prop) :
    t.Grows [s.name] mentioned t₁ where
  definitions := h.definitions
  captures := h.captures ▸ List.prefix_rfl
  change n := by
    rw [h.symbols n]
    split
    · next hn =>
      subst hn
      exact .declared (by simp) h.free h.isSlot
    · exact .same _
  declared n hn := by
    rw [List.mem_singleton.mp hn]
    exact ⟨s, by rw [h.symbols, if_pos rfl], h.isSlot⟩

theorem sound (h : Declared s t t₁) (ht : t.Sound) : t₁.Sound := by
  -- the new slot lies behind all others
  have hslot : ∀ {n : String} {s' : Symbol}, t.symbols[n]? = some s' → s'.IsSlot →
      s'.index ≠ s.index := by
    intro n s' hs' hslot'
    have := ht.slot_lt hs' hslot'
    rw [h.index]
    omega
  constructor
  case name =>
    intro n s' hs'
    rw [h.symbols] at hs'
    split at hs'
    · next hn =>
      cases hs'
      exact hn
    · exact ht.name hs'
  case slot_lt =>
    intro n s' hs' hslot'
    rw [h.definitions]
    rw [h.symbols] at hs'
    split at hs'
    · cases hs'
      rw [h.index]
      omega
    · have := ht.slot_lt hs' hslot'
      omega
  case slot_unique =>
    intro n n' s₁ s₂ hs₁ hs₂ hslot₁ hslot₂ heq
    rw [h.symbols] at hs₁ hs₂
    split at hs₁ <;> split at hs₂
    · next hn hn' => rw [← hn, ← hn']
    · cases hs₁
      exact absurd heq.symm (hslot hs₂ hslot₂)
    · cases hs₂
      exact absurd heq (hslot hs₁ hslot₁)
    · exact ht.slot_unique hs₁ hs₂ hslot₁ hslot₂ heq
  case captured =>
    intro n s' hs' hcaptured
    rw [h.captures]
    rw [h.symbols] at hs'
    split at hs'
    · cases hs'
      exact absurd h.isSlot (Symbol.not_isSlot (.inl hcaptured))
    · exact ht.captured hs' hcaptured
  case captures =>
    intro j c hc
    rw [h.captures] at hc
    obtain ⟨s', hs', hcaptured, hj⟩ := ht.captures hc
    refine ⟨s', ?_, hcaptured, hj⟩
    rw [h.symbols]
    split
    · next hn =>
      -- a captured name cannot be declared
      rw [← hn] at hs'
      have := h.free s' hs'
      rw [hcaptured] at this
      cases this
    · exact hs'

theorem isInner (h : Declared s t t₁) (ht : t.IsInner) (hs : s.storage = .localSlot) :
    t₁.IsInner := by
  intro n s' hs'
  rw [h.symbols] at hs'
  split at hs'
  · cases hs'
    exact .inl hs
  · exact ht hs'

theorem isRoot (h : Declared s t t₁) (ht : t.IsRoot) (hs : s.storage = .globalSlot) :
    t₁.IsRoot where
  storage := by
    intro n s' hs'
    rw [h.symbols] at hs'
    split at hs'
    · next hn =>
      cases hs'
      refine .inl ⟨hs, ?_⟩
      -- built-in functions have entries, so their names are not free
      cases hbuiltin : Builtin.ofName? n with
      | none => rfl
      | some b =>
        obtain ⟨old, hold⟩ := ht.builtins hbuiltin
        have hself := h.free old (by rw [hn, hold])
        rcases ht.storage hold with ⟨hold, -⟩ | ⟨hold, -⟩ <;> rw [hself] at hold <;> cases hold
    · exact ht.storage hs'
  builtins {n _} hb := by
    obtain ⟨old, hold⟩ := ht.builtins hb
    by_cases hn : s.name = n
    · exact ⟨s, by rw [h.symbols, if_pos hn]⟩
    · exact ⟨old, by rw [h.symbols, if_neg hn, hold]⟩
  captures := by rw [h.captures, ht.captures]

end Declared

/-- What a declaration enters. -/
theorem define_ok {t t₁ : ScopeTable} {storage : Storage} {name : String}
    {mutability : Mutability} {s : Symbol} (h : t.define storage name mutability = .ok (s, t₁))
    (hstorage : storage = .globalSlot ∨ storage = .localSlot) :
    s = ⟨name, storage, t.definitions, mutability, none⟩ ∧ Declared s t t₁ := by
  rw [define] at h
  split at h
  case isFalse => cases h
  case isTrue hdeclarable =>
    cases h
    have hfree : ∀ old, t.symbols[name]? = some old → old.storage = .self := by
      intro old hold
      simpa [isDeclarable, hold] using hdeclarable
    exact ⟨rfl, hfree, rfl, hstorage, fun n => symbols_insert t _ n, rfl, rfl⟩

/-- The number of parameters of a name is recorded after its declaration. -/
theorem Declared.recordArity {t t₁ : ScopeTable} {s : Symbol} (h : Declared s t t₁) (arity : Nat) :
    Declared { s with arity? := some arity } t (t₁.recordArity s.name arity) := by
  have hentry : t₁.symbols[s.name]? = some s := by rw [h.symbols, if_pos rfl]
  refine ⟨h.free, h.index, h.isSlot, fun n => ?_, ?_, ?_⟩ <;>
    simp only [ScopeTable.recordArity, hentry]
  · rw [Std.TreeMap.getElem?_insert, h.symbols]
    by_cases hn : s.name = n
    · simp [hn]
    · simp [hn]
  · exact h.definitions
  · exact h.captures

section

variable {t : ScopeTable} {outside : Symbol}

theorem grows_capture (hfree : ¬ t.Binds outside.name) {mentioned : String → Prop}
    (hmentioned : mentioned outside.name) : t.Grows [] mentioned (t.capture outside).2 where
  definitions := rfl
  captures := by simp [capture, insert]
  change n := by
    show Change [] mentioned n t.symbols[n]? (t.insert (t.capture outside).1).symbols[n]?
    rw [symbols_insert]
    split
    · next hn =>
      have hnone : t.symbols[n]? = none := by
        cases hs : t.symbols[n]? with
        | none => rfl
        | some s => exact absurd ⟨s, by rw [← hs, ← hn]; rfl⟩ hfree
      rw [hnone]
      exact .captured (hn ▸ hmentioned) rfl
    · exact .same _
  declared := by simp

theorem symbols_capture (t : ScopeTable) (outside : Symbol) (n : String) :
    (t.capture outside).2.symbols[n]? =
      if outside.name = n then some (t.capture outside).1 else t.symbols[n]? :=
  symbols_insert t _ n

theorem captures_capture (t : ScopeTable) (outside : Symbol) :
    (t.capture outside).2.captures = t.captures.push outside := rfl

theorem sound_capture (ht : t.Sound) (hfree : ¬ t.Binds outside.name) :
    (t.capture outside).2.Sound := by
  -- the new symbol takes no slot, so only the last two fields are about it
  have hnot : ¬ (t.capture outside).1.IsSlot := Symbol.not_isSlot (.inl rfl)
  constructor
  case name =>
    intro n s hs
    rw [symbols_capture] at hs
    split at hs
    · next hn =>
      cases hs
      exact hn
    · exact ht.name hs
  case slot_lt =>
    intro n s hs hslot
    rw [symbols_capture] at hs
    split at hs
    · cases hs
      exact absurd hslot hnot
    · exact ht.slot_lt hs hslot
  case slot_unique =>
    intro n n' s₁ s₂ hs₁ hs₂ hslot₁ hslot₂ heq
    rw [symbols_capture] at hs₁ hs₂
    split at hs₁
    · cases hs₁
      exact absurd hslot₁ hnot
    · split at hs₂
      · cases hs₂
        exact absurd hslot₂ hnot
      · exact ht.slot_unique hs₁ hs₂ hslot₁ hslot₂ heq
  case captured =>
    intro n s hs hcaptured
    rw [captures_capture]
    rw [symbols_capture] at hs
    split at hs
    · next hn =>
      cases hs
      exact ⟨outside, by simp [capture], hn⟩
    · obtain ⟨c, hc, hname⟩ := ht.captured hs hcaptured
      refine ⟨c, ?_, hname⟩
      have hlt := (Array.getElem?_eq_some_iff.mp hc).1
      rw [Array.getElem?_push, if_neg (by omega), hc]
  case captures =>
    intro j c hc
    rw [captures_capture, Array.getElem?_push] at hc
    split at hc
    · next hj =>
      cases hc
      exact ⟨_, by rw [symbols_capture, if_pos rfl], rfl, hj.symm⟩
    · obtain ⟨s, hs, hcaptured, hj⟩ := ht.captures hc
      refine ⟨s, ?_, hcaptured, hj⟩
      rw [symbols_capture, if_neg, hs]
      intro hn
      -- the new symbol shadows none of those captured before
      exact hfree ⟨s, hn ▸ hs⟩

theorem isInner_capture (ht : t.IsInner) : (t.capture outside).2.IsInner := by
  intro n s hs
  rw [symbols_capture] at hs
  split at hs
  · cases hs
    exact .inr (.inl rfl)
  · exact ht hs

end

end ScopeTable

/-! ### Chains of tables -/

namespace Scopes

/-- The outermost table. -/
def root (scopes : Scopes) : ScopeTable :=
  scopes.outer.getLastD scopes.current

/-- The tables of functions inside one another, and the root. Captured symbols are variables of
the next outer table. -/
inductive Linked : ScopeTable → List ScopeTable → Prop where
  | root {t : ScopeTable} : t.Sound → t.IsRoot → Linked t []
  | inner {t next : ScopeTable} {outer : List ScopeTable} : t.Sound → t.IsInner →
      (∀ c ∈ t.captures.toList, c.IsVariable ∧ next.symbols[c.name]? = some c) →
      Linked next outer → Linked t (next :: outer)

/-- What the chains of the compiler satisfy. -/
def Sound (scopes : Scopes) : Prop :=
  Linked scopes.current scopes.outer

/-- Tables gain captures of mentioned names that no table inside them knows. -/
inductive Captures : (String → Prop) → List ScopeTable → List ScopeTable → Prop where
  | nil {mentioned : String → Prop} : Captures mentioned [] []
  | cons {mentioned : String → Prop} {t t₁ : ScopeTable} {outer outer₁ : List ScopeTable} :
      t.Grows [] mentioned t₁ →
      Captures (fun n => mentioned n ∧ ¬ t.Binds n) outer outer₁ →
      Captures mentioned (t :: outer) (t₁ :: outer₁)

/-- Some function of the chain has a variable with this name. -/
def HasVariable : List ScopeTable → String → Prop
  | t :: next :: outer, n => t.Binds n ∨ HasVariable (next :: outer) n
  | _, _ => False

theorem Linked.sound {t : ScopeTable} {outer : List ScopeTable} (h : Linked t outer) :
    t.Sound := by
  cases h with
  | root ht _ => exact ht
  | inner ht _ _ _ => exact ht

theorem Linked.isRoot {t : ScopeTable} {outer : List ScopeTable} (h : Linked t outer) :
    (outer.getLastD t).IsRoot := by
  induction h with
  | root _ ht => exact ht
  | inner _ _ _ _ ih => rwa [List.getLastD_cons]

theorem Linked.isInner {t : ScopeTable} {outer : List ScopeTable} (h : Linked t outer)
    (houter : outer ≠ []) : t.IsInner := by
  cases h with
  | root => exact absurd rfl houter
  | inner _ ht _ _ => exact @ht

namespace Captures

variable {mentioned mentioned' : String → Prop} {ts ts₁ ts₂ : List ScopeTable}

protected theorem refl (mentioned : String → Prop) (ts : List ScopeTable) :
    Captures mentioned ts ts := by
  induction ts generalizing mentioned with
  | nil => exact .nil
  | cons t outer ih => exact .cons (.refl _ t) (ih _)

theorem mono (h : Captures mentioned ts ts₁) (hm : ∀ n, mentioned n → mentioned' n) :
    Captures mentioned' ts ts₁ := by
  induction h generalizing mentioned' with
  | nil => exact .nil
  | cons hgrows _ ih =>
    exact .cons (hgrows.mono (.refl _) fun n _ => hm n) (ih fun n hn => ⟨hm n hn.1, hn.2⟩)

protected theorem trans (h : Captures mentioned ts ts₁) (h' : Captures mentioned' ts₁ ts₂) :
    Captures (fun n => mentioned n ∨ mentioned' n) ts ts₂ := by
  induction h generalizing mentioned' ts₂ with
  | nil =>
    cases h'
    exact .nil
  | cons hgrows _ ih =>
    cases h' with
    | cons hgrows' houter' =>
      refine .cons (hgrows.trans hgrows') ((ih houter').mono ?_)
      -- a name that the inner table does not know later it did not know before
      rintro n (⟨hn, hfree⟩ | ⟨hn, hfree⟩)
      · exact ⟨.inl hn, hfree⟩
      · exact ⟨.inr hn, fun hbound => hfree (hgrows.binds hbound)⟩

theorem ne_nil (h : Captures mentioned ts ts₁) (hts : ts ≠ []) : ts₁ ≠ [] := by
  cases h with
  | nil => exact absurd rfl hts
  | cons _ _ => simp

theorem eq_nil (h : Captures mentioned [] ts₁) : ts₁ = [] := by
  cases h
  rfl

/-- The outermost table grows like all others. -/
theorem getLastD (h : Captures mentioned ts ts₁) {t t₁ : ScopeTable}
    (ht : ∃ declared, t.Grows declared (fun _ => True) t₁) :
    ∃ declared, (ts.getLastD t).Grows declared (fun _ => True) (ts₁.getLastD t₁) := by
  induction h generalizing t t₁ with
  | nil => exact ht
  | cons hgrows _ ih =>
    rw [List.getLastD_cons, List.getLastD_cons]
    exact ih ⟨[], hgrows.mono (.refl _) fun _ _ _ => trivial⟩

theorem hasVariable (h : Captures mentioned ts ts₁) {n : String} (hn : HasVariable ts n) :
    HasVariable ts₁ n := by
  induction h with
  | nil => exact hn
  | cons hgrows houter ih =>
    cases houter with
    | nil => exact hn
    | cons hgrows' houter' =>
      rcases hn with hn | hn
      · exact .inl (hgrows.binds hn)
      · exact .inr (ih hn)

end Captures

/-! ### Finding names -/

/-- Captures in the outer tables leave the links of the innermost one alone. -/
theorem links_of_grows {t next next₁ : ScopeTable} {mentioned : String → Prop}
    (h : ∀ c ∈ t.captures.toList, c.IsVariable ∧ next.symbols[c.name]? = some c)
    (hgrows : next.Grows [] mentioned next₁) :
    ∀ c ∈ t.captures.toList, c.IsVariable ∧ next₁.symbols[c.name]? = some c :=
  fun c hc => ⟨(h c hc).1, hgrows.entry_of_nil (h c hc).2⟩

/-- How a name is found that the innermost table does not know: what is found further out is
passed on if it is no variable, and captured if it is one. -/
theorem resolveIn_cons_ok {name : String} {t t₁ next : ScopeTable} {outer outer₁ : List ScopeTable}
    {s : Symbol} (hnone : t.symbols[name]? = none)
    (h : resolveIn name t (next :: outer) = .ok (s, t₁, outer₁)) :
    ∃ s' next₁ outer', resolveIn name next outer = .ok (s', next₁, outer') ∧
      ((s'.storage = .globalSlot ∨ s'.storage = .builtin) ∧
          (s, t₁, outer₁) = (s', t, next₁ :: outer') ∨
        ¬ (s'.storage = .globalSlot ∨ s'.storage = .builtin) ∧
          (s, t₁, outer₁) = ((t.capture s').1, (t.capture s').2, next₁ :: outer')) := by
  rw [resolveIn, hnone] at h
  cases hrest : resolveIn name next outer with
  | error e =>
    rw [hrest] at h
    cases h
  | ok found =>
    obtain ⟨s', next₁, outer'⟩ := found
    rw [hrest] at h
    refine ⟨s', next₁, outer', rfl, ?_⟩
    dsimp only [bind, Except.bind] at h
    cases hstorage : s'.storage <;> rw [hstorage] at h <;> cases h <;> simp

/-- A name is found as a variable of the current function, or it is no variable of any function
of the chain and stands in the root table. -/
theorem resolveIn_spec {name : String} {t t₁ : ScopeTable} {outer outer₁ : List ScopeTable}
    {s : Symbol} (h : Linked t outer) (hresolve : resolveIn name t outer = .ok (s, t₁, outer₁)) :
    Linked t₁ outer₁ ∧ Captures (· = name) (t :: outer) (t₁ :: outer₁) ∧
      ((s.IsVariable ∧ t₁.symbols[name]? = some s) ∨
        ((outer₁.getLastD t₁).symbols[name]? = some s ∧ ¬ HasVariable (t :: outer) name)) := by
  -- the recursion of `resolveIn` goes outwards, along the links
  induction h generalizing s t₁ outer₁ with
  | @root t hsound hroot =>
    rw [resolveIn] at hresolve
    split at hresolve
    · next hs =>
      cases hresolve
      exact ⟨.root hsound hroot, .refl _ _, .inr ⟨hs, id⟩⟩
    · cases hresolve
  | @inner t next outer hsound hinner hlinks hnext ih =>
    cases hentry : t.symbols[name]? with
    | some found =>
      rw [resolveIn, hentry] at hresolve
      cases hresolve
      exact ⟨.inner hsound hinner hlinks hnext, .refl _ _, .inl ⟨hinner hentry, hentry⟩⟩
    | none =>
      have hfree : ¬ t.Binds name := fun ⟨s, hs⟩ => by simp [hentry] at hs
      obtain ⟨s', next₁, outer', hrest, hcase⟩ := resolveIn_cons_ok hentry hresolve
      obtain ⟨hlinked, hcaptures, hfound⟩ := ih hrest
      have hgrows : next.Grows [] (· = name) next₁ := by
        cases hcaptures with
        | cons hgrows _ => exact hgrows
      have hlinks₁ := links_of_grows hlinks hgrows
      -- the tables further out gain the name only because this one does not know it
      have hcaptures' : Captures (fun n => n = name ∧ ¬ t.Binds n) (next :: outer)
          (next₁ :: outer') := hcaptures.mono fun n hn => ⟨hn, hn ▸ hfree⟩
      rcases hcase with ⟨hglobal, heq⟩ | ⟨hvariable, heq⟩
      · -- a global or a built-in function: this table stays as it is
        cases heq
        refine ⟨.inner hsound hinner hlinks₁ hlinked, .cons (.refl _ t) hcaptures', .inr ?_⟩
        rcases hfound with ⟨hs', -⟩ | ⟨hs', hno⟩
        · rcases hglobal with hglobal | hglobal <;> simp [Symbol.IsVariable, hglobal] at hs'
        · refine ⟨by rwa [List.getLastD_cons], ?_⟩
          rintro (hbound | hbound)
          · exact hfree hbound
          · exact hno hbound
      · -- a variable of a function around: this table captures it
        cases heq
        rcases hfound with ⟨hs', hentry'⟩ | ⟨hs', -⟩
        · have hname : s'.name = name := hlinked.sound.name hentry'
          have hfree' : ¬ t.Binds s'.name := hname ▸ hfree
          refine ⟨.inner (ScopeTable.sound_capture hsound hfree')
              (ScopeTable.isInner_capture hinner) ?_ hlinked,
            .cons (ScopeTable.grows_capture hfree' hname) hcaptures',
            .inl ⟨.inr (.inl rfl), ?_⟩⟩
          · intro c hc
            rw [ScopeTable.captures_capture, Array.toList_push, List.mem_append,
              List.mem_singleton] at hc
            rcases hc with hc | rfl
            · exact hlinks₁ c hc
            · exact ⟨hs', hname ▸ hentry'⟩
          · rw [ScopeTable.symbols_capture, if_pos hname]
        · -- what stands in the root is no variable
          rcases hlinked.isRoot.storage hs' with ⟨hs', -⟩ | ⟨hs', -⟩ <;>
            exact absurd (by simp [hs']) hvariable

/-- The number of slots that operands can tell apart, for globals. -/
def globalLimit : Nat := 65536

/-- The chain `b` is `a` after names were declared in the current function and mentioned names
were captured. -/
structure Grows (declared : List String) (mentioned : String → Prop) (a b : Scopes) : Prop where
  current : a.current.Grows declared mentioned b.current
  outer : Captures (fun n => mentioned n ∧ ¬ a.current.Binds n) a.outer b.outer
  /-- The number of globals stays within its limit. -/
  limit : a.outer = [] → a.current.definitions ≤ globalLimit →
    b.current.definitions ≤ globalLimit

namespace Grows

variable {declared declared' : List String} {mentioned mentioned' : String → Prop}
  {a b c : Scopes}

protected theorem refl (mentioned : String → Prop) (a : Scopes) : a.Grows [] mentioned a :=
  ⟨.refl _ _, .refl _ _, fun _ h => h⟩

theorem mono (h : a.Grows declared mentioned b) (hdeclared : declared.Perm declared')
    (hmentioned : ∀ n, ¬ a.current.Binds n → mentioned n → mentioned' n) :
    a.Grows declared' mentioned' b where
  current := h.current.mono hdeclared hmentioned
  outer := h.outer.mono fun n hn => ⟨hmentioned n hn.2 hn.1, hn.2⟩
  limit := h.limit

protected theorem trans (h : a.Grows declared mentioned b) (h' : b.Grows declared' mentioned' c) :
    a.Grows (declared ++ declared') (fun n => mentioned n ∨ mentioned' n) c where
  current := h.current.trans h'.current
  outer := (h.outer.trans h'.outer).mono fun n hn => by
    rcases hn with ⟨hn, hfree⟩ | ⟨hn, hfree⟩
    · exact ⟨.inl hn, hfree⟩
    · exact ⟨.inr hn, fun hbound => hfree (h.current.binds hbound)⟩
  limit houter hwide := h'.limit (houter ▸ h.outer).eq_nil (h.limit houter hwide)

/-- Captures alone. -/
theorem of_captures {t t₁ : ScopeTable} {outer outer₁ : List ScopeTable}
    (h : Captures mentioned (t :: outer) (t₁ :: outer₁)) :
    Grows [] mentioned ⟨t, outer⟩ ⟨t₁, outer₁⟩ := by
  cases h with
  | cons hgrows houter =>
    refine ⟨hgrows, houter, fun _ hwide => ?_⟩
    have hdefinitions := hgrows.definitions
    rw [List.length_nil, Nat.add_zero] at hdefinitions
    rw [hdefinitions]
    exact hwide

theorem root (h : a.Grows declared mentioned b) :
    ∃ declared, a.root.Grows declared (fun _ => True) b.root :=
  h.outer.getLastD ⟨_, h.current.mono (.refl _) fun _ _ _ => trivial⟩

end Grows

/-- The result of looking for a name. -/
theorem resolve_spec {a b : Scopes} {name : String} {s : Symbol} (h : a.Sound)
    (hresolve : a.resolve name = .ok (s, b)) :
    b.Sound ∧ a.Grows [] (· = name) b ∧
      ((s.IsVariable ∧ b.current.symbols[name]? = some s) ∨
        (b.root.symbols[name]? = some s ∧ ¬ HasVariable (a.current :: a.outer) name)) := by
  rw [resolve] at hresolve
  cases hfound : resolveIn name a.current a.outer with
  | error e =>
    rw [hfound] at hresolve
    cases hresolve
  | ok found =>
    obtain ⟨s', t₁, outer₁⟩ := found
    rw [hfound] at hresolve
    cases hresolve
    obtain ⟨hlinked, hcaptures, hentry⟩ := resolveIn_spec h hfound
    exact ⟨hlinked, .of_captures hcaptures, hentry⟩

/-- Leaving a function: its captures are variables of the function around it. -/
theorem leave_spec {a : Scopes} (h : a.Sound) (houter : a.outer ≠ []) :
    (a.leave?.getD {}).root = a.root ∧
      ∀ c ∈ a.current.captures.toList, c.IsVariable ∧
        (a.leave?.getD {}).current.symbols[c.name]? = some c := by
  obtain ⟨current, outer⟩ := a
  cases h with
  | root _ _ => exact absurd rfl houter
  | @inner _ next outer hsound _ hlinks hnext =>
    refine ⟨?_, hlinks⟩
    rw [root, root, List.getLastD_cons]
    rfl

/-- Where declared names live. -/
def slotStorage (scopes : Scopes) : Storage :=
  if scopes.isGlobal then .globalSlot else .localSlot

theorem slotStorage_cases (scopes : Scopes) :
    scopes.slotStorage = .globalSlot ∨ scopes.slotStorage = .localSlot := by
  rw [slotStorage]
  split <;> simp

/-- What a declaration enters in the current table. -/
theorem define_ok {a b : Scopes} {name : String} {mutability : Mutability} {s : Symbol}
    (h : a.define name mutability = .ok (s, b)) :
    s = ⟨name, a.slotStorage, a.current.definitions, mutability, none⟩ ∧
      ∃ t, ScopeTable.Declared s a.current t ∧ b = ⟨t, a.outer⟩ := by
  rw [define] at h
  cases htable : a.current.define a.slotStorage name mutability with
  | error e =>
    rw [slotStorage] at htable
    rw [htable] at h
    cases h
  | ok found =>
    obtain ⟨hs, hdeclared⟩ := ScopeTable.define_ok htable a.slotStorage_cases
    rw [slotStorage] at htable
    rw [htable] at h
    cases h
    exact ⟨hs, found.2, hdeclared, rfl⟩

theorem sound_of_declared {a : Scopes} {s : Symbol} {t : ScopeTable} (h : a.Sound)
    (ht : ScopeTable.Declared s a.current t) (hs : s.storage = a.slotStorage) :
    Linked t a.outer := by
  obtain ⟨current, outer⟩ := a
  cases h with
  | root hsound hroot => exact .root (ht.sound hsound) (ht.isRoot hroot hs)
  | inner hsound hinner hlinks hnext =>
    -- declarations capture nothing, so the links are the old ones
    refine .inner (ht.sound hsound) (ht.isInner hinner hs) ?_ hnext
    rw [ht.captures]
    exact hlinks

/-- The result of a declaration, after which the number of parameters may be recorded. -/
theorem declare_spec {a b c : Scopes} {name : String} {mutability : Mutability} {s : Symbol}
    (h : a.Sound) (hdefine : a.define name mutability = .ok (s, b))
    (hc : c = b ∨ ∃ arity, c = b.recordArity name arity) :
    c.Sound ∧ c.outer = a.outer ∧ s.storage = a.slotStorage ∧ s.index = a.current.definitions ∧
      ∃ s' : Symbol, s'.name = name ∧ s'.storage = a.slotStorage ∧
        ScopeTable.Declared s' a.current c.current := by
  obtain ⟨hs, t, hdeclared, rfl⟩ := define_ok hdefine
  subst hs
  rcases hc with rfl | ⟨arity, rfl⟩
  · have hsound : Linked t a.outer := sound_of_declared h hdeclared rfl
    exact ⟨hsound, rfl, rfl, rfl, _, rfl, rfl, hdeclared⟩
  · have hdeclared' := hdeclared.recordArity arity
    have hsound : Linked (t.recordArity name arity) a.outer := sound_of_declared h hdeclared' rfl
    exact ⟨hsound, rfl, rfl, rfl, _, rfl, rfl, hdeclared'⟩

end Scopes

/-! ### The beginning of a program and of a function -/

theorem Builtin.ofName?_name (b : Builtin) : Builtin.ofName? b.name = some b := by
  cases b <;> decide

theorem Builtin.name_of_ofName? {n : String} {b : Builtin} (h : Builtin.ofName? n = some b) :
    b.name = n := by
  simpa using Array.find?_some h

/-- The entries of the built-in functions. -/
theorem ScopeTable.symbols_ofBuiltins (n : String) :
    (ofBuiltins Builtin.names).symbols[n]? = (Builtin.ofName? n).map fun b =>
      ⟨n, .builtin, Builtin.all.toList.idxOf b, .constant, none⟩ := by
  have hfold : ofBuiltins Builtin.names = Builtin.all.toList.foldl (fun t b =>
      t.insert ⟨b.name, .builtin, Builtin.all.toList.idxOf b, .constant, none⟩) {} := rfl
  rw [hfold]
  simp only [Builtin.all, List.foldl_cons, List.foldl_nil, symbols_insert]
  cases hb : Builtin.ofName? n with
  | none =>
    have hne : ∀ b : Builtin, b.name ≠ n := by
      rintro b rfl
      rw [Builtin.ofName?_name] at hb
      cases hb
    simp [hne]
  | some b =>
    obtain rfl := Builtin.name_of_ofName? hb
    cases b <;> simp [Builtin.name]

theorem ScopeTable.isRoot_ofBuiltins : (ofBuiltins Builtin.names).IsRoot where
  storage {n s} hs := by
    rw [symbols_ofBuiltins, Option.map_eq_some_iff] at hs
    obtain ⟨b, hb, rfl⟩ := hs
    refine .inr ⟨rfl, b, ?_, hb⟩
    show Builtin.ofIndex? (Builtin.all.toList.idxOf b) = some b
    cases b <;> decide
  builtins {n b} hb := ⟨_, by rw [symbols_ofBuiltins, hb, Option.map_some]⟩
  captures := rfl

theorem ScopeTable.sound_ofBuiltins : (ofBuiltins Builtin.names).Sound := by
  have hentry : ∀ {n : String} {s : Symbol}, (ofBuiltins Builtin.names).symbols[n]? = some s →
      s.name = n ∧ s.storage = .builtin := by
    intro n s hs
    rw [symbols_ofBuiltins, Option.map_eq_some_iff] at hs
    obtain ⟨b, -, rfl⟩ := hs
    exact ⟨rfl, rfl⟩
  have hslot : ∀ {n : String} {s : Symbol}, (ofBuiltins Builtin.names).symbols[n]? = some s →
      ¬ s.IsSlot := fun hs => Symbol.not_isSlot (.inr (.inr (hentry hs).2))
  refine ⟨fun hs => (hentry hs).1, fun hs hs' => absurd hs' (hslot hs),
    fun hs _ hs' => absurd hs' (hslot hs), fun hs hs' => ?_, fun hc => ?_⟩
  · rw [(hentry hs).2] at hs'
    cases hs'
  · rw [isRoot_ofBuiltins.captures] at hc
    simp at hc

/-- The chain with which a program begins. -/
theorem Scopes.sound_init : (Scopes.ofRoot (.ofBuiltins Builtin.names)).Sound :=
  .root ScopeTable.sound_ofBuiltins ScopeTable.isRoot_ofBuiltins

/-- The table with which the body of a function begins: the function's own name, and its
parameters in the first slots. -/
structure ScopeTable.Entered (name? : Option String) (params : List Param) (t : ScopeTable) :
    Prop where
  sound : t.Sound
  isInner : t.IsInner
  captures : t.captures = #[]
  definitions : t.definitions = params.length
  declares : ∀ n, t.Declares n ↔ n ∈ params.map Param.name
  param : ∀ {i : Nat} {param : Param}, params[i]? = some param →
    ∃ s, t.symbols[param.name]? = some s ∧ s.storage = .localSlot ∧ s.index = i
  self : ∀ {n : String} {s : Symbol}, t.symbols[n]? = some s → s.storage = .self → name? = some n
  own : ∀ {n : String}, name? = some n →
    ∃ s, t.symbols[n]? = some s ∧ (s.IsSlot ∨ s.storage = .self)

namespace ScopeTable.Entered

variable {name? : Option String} {params : List Param} {t t₁ : ScopeTable}

theorem unnamed : Entered none [] {} where
  sound := by constructor <;> simp
  isInner hs := by simp at hs
  captures := rfl
  definitions := rfl
  declares n := by simp [Declares]
  param h := by simp at h
  self hs := by simp at hs
  own h := by cases h

theorem named (name : String) (arity : Nat) :
    Entered (some name) [] (({} : ScopeTable).nameSelf name arity).2 := by
  -- the only symbol is that of the function itself, which has no slot
  have hentry : ∀ {n : String} {s : Symbol},
      (({} : ScopeTable).nameSelf name arity).2.symbols[n]? = some s →
        s.storage = .self ∧ s.name = n ∧ name = n := by
    intro n s hs
    rw [nameSelf, symbols_insert] at hs
    split at hs
    · next hn =>
      cases hs
      exact ⟨rfl, hn, hn⟩
    · simp at hs
  have hslot : ∀ {n : String} {s : Symbol},
      (({} : ScopeTable).nameSelf name arity).2.symbols[n]? = some s → ¬ s.IsSlot :=
    fun hs => Symbol.not_isSlot (.inr (.inl (hentry hs).1))
  refine ⟨⟨fun hs => (hentry hs).2.1, fun hs hs' => absurd hs' (hslot hs),
    fun hs _ hs' => absurd hs' (hslot hs), fun hs hs' => ?_, fun hc => ?_⟩,
    fun hs => .inr (.inr (hentry hs).1), rfl, rfl, fun n => ?_, fun h => ?_,
    fun hs _ => congrArg some (hentry hs).2.2, fun hn => ?_⟩
  · rw [(hentry hs).1] at hs'
    cases hs'
  · simp [nameSelf, insert] at hc
  · refine ⟨fun ⟨s, hs, hs'⟩ => absurd hs' (hslot hs), fun h => ?_⟩
    simp at h
  · simp at h
  · cases hn
    exact ⟨_, by rw [nameSelf, symbols_insert, if_pos rfl], .inr rfl⟩

theorem declare (h : Entered name? params t) {param : Param} {s : Symbol}
    (hs : Declared s t t₁) (hname : s.name = param.name) (hstorage : s.storage = .localSlot) :
    Entered name? (params ++ [param]) t₁ where
  sound := hs.sound h.sound
  isInner := hs.isInner h.isInner hstorage
  captures := by rw [hs.captures, h.captures]
  definitions := by rw [hs.definitions, h.definitions, List.length_append]; rfl
  declares n := by
    rw [(hs.grows fun _ => True).declares_iff, h.declares, hname]
    simp
  param {i param'} hi := by
    rw [List.getElem?_append] at hi
    split at hi
    · obtain ⟨s', hs', hlocal, hindex⟩ := h.param hi
      refine ⟨s', (hs.grows fun _ => True).entry hs' ?_, hlocal, hindex⟩
      rw [hlocal]
      decide
    · rw [List.getElem?_singleton] at hi
      split at hi
      · cases hi
        refine ⟨s, by rw [hs.symbols, if_pos hname], hstorage, ?_⟩
        rw [hs.index, h.definitions]
        omega
      · cases hi
  self hs' hself := h.self ((hs.grows fun _ => True).entry_of_self hs' hself) hself
  own {n} hn := by
    obtain ⟨s', hs', hkind⟩ := h.own hn
    rcases (hs.grows fun _ => True).self_or_declares hs' with hs' | ⟨s', hs', hslot⟩
    · exact ⟨s', hs', hkind⟩
    · exact ⟨s', hs', .inl hslot⟩

theorem linked (h : Entered name? params t) {scopes : Scopes} (hscopes : scopes.Sound) :
    Scopes.Linked t (scopes.current :: scopes.outer) :=
  .inner h.sound h.isInner (by simp [h.captures]) hscopes

/-- The names known when the body begins. -/
theorem binds (h : Entered name? params t) {n : String}
    (hn : n ∈ name?.toList ++ params.map Param.name) : t.Binds n := by
  rcases List.mem_append.mp hn with hn | hn
  · obtain ⟨s, hs, -⟩ := h.own (Option.mem_toList.mp hn)
    exact ⟨s, hs⟩
  · obtain ⟨s, hs, -⟩ := (h.declares n).mpr hn
    exact ⟨s, hs⟩

/-- What a function captures is mentioned after its body begins. -/
theorem mentioned_of_capture {T : ScopeTable} {declared : List String}
    {mentioned : String → Prop} (h : Entered name? params t) (hgrows : t.Grows declared mentioned T)
    (hT : T.Sound) {c : Symbol} (hc : c ∈ T.captures.toList) : mentioned c.name := by
  obtain ⟨j, hj⟩ := List.mem_iff_getElem?.mp hc
  rw [Array.getElem?_toList] at hj
  obtain ⟨s, hs, hcaptured, -⟩ := hT.captures hj
  refine hgrows.mentioned_of_captured hs hcaptured ?_
  rintro ⟨old, hold⟩
  rcases hgrows.self_or_declares hold with hs' | ⟨s', hs', hslot⟩
  · -- nothing was captured before
    rw [hs] at hs'
    cases hs'
    obtain ⟨c', hc', -⟩ := h.sound.captured hold hcaptured
    simp [h.captures] at hc'
  · rw [hs] at hs'
    cases hs'
    exact absurd hslot (Symbol.not_isSlot (.inl hcaptured))

end ScopeTable.Entered

end Bytescript
