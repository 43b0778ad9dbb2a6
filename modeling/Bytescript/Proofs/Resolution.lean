/-
How names are found.

A name belongs to the innermost table that has it as its own: as a declaration, as the name of the
function itself, or as a built-in function. What the root has is found as it is. What a function
around the current one has is captured by every table on the way: the symbol that is found is an
index into the captures of the current table, the symbol there is an index into the captures of the
next one, and so on until the table to which the name belongs.

* `Scopes.Built` — the chains that can be built, from a root table with built-in functions;
* `Scopes.Resolution` — where a name is found, and which tables change on the way;
* `Scopes.lookup` — finding a name as a step on the tables, which could leave a change behind;
* `Scopes.resolve_lexical` — the main statement, for all these chains and all names.

Design notes: that a captured symbol leads to the right place rests on what was captured before,
when another name or the same one was looked up. `Scopes.Chained` says what every captured entry of
a table stands for in the next one, and every operation keeps it. A captured symbol copies the
number of parameters that is known when it is captured, and a number that is recorded later changes
the copy alone. So the chains have a parameter that says whether numbers are recorded only for names
that a table has as its own; nothing but the number depends on it.
-/
import Bytescript.Proofs.Names
import Mathlib.Data.List.Forall2

namespace Bytescript

/-! ### Links between tables -/

namespace ScopeTable

/-- The table has the name as its own: declared, as the name of the function itself, or as a
built-in function. -/
def Owns (t : ScopeTable) (name : String) : Prop :=
  ∃ s, t.symbols[name]? = some s ∧ s.storage ≠ .captured

/-- The table `t₁` is `t`, or `t` with one more capture, of a name that `t` does not know. -/
inductive Widens (name : String) (t : ScopeTable) : ScopeTable → Prop where
  | same : Widens name t t
  | capture {outside : Symbol} : outside.name = name → ¬ t.Binds name →
      Widens name t (t.capture outside).2

/-- The captured symbol `s` of `t` stands for the variable `c` of the table around it. The number of
parameters is the same if it is only recorded for names that a table has as its own. -/
structure Stands (ownOnly : Prop) (t : ScopeTable) (s c : Symbol) : Prop where
  storage : s.storage = .captured
  capture : t.captures[s.index]? = some c
  isVariable : c.IsVariable
  mutability : s.mutability = c.mutability
  arity : ownOnly → s.arity? = c.arity?

variable {ownOnly : Prop} {t t₁ next next₁ : ScopeTable} {name n : String} {s c : Symbol}

theorem Widens.entry (h : Widens name t t₁) (hs : t.symbols[n]? = some s) :
    t₁.symbols[n]? = some s := by
  cases h with
  | same => exact hs
  | capture hname hfree =>
    rw [symbols_capture, hname, if_neg, hs]
    rintro rfl
    exact hfree ⟨s, hs⟩

/-- What was captured stays captured. -/
theorem Stands.mono (h : Stands ownOnly t s c)
    (hcaptures : t.captures.toList <+: t₁.captures.toList) : Stands ownOnly t₁ s c := by
  refine { h with capture := ?_ }
  obtain ⟨rest, hrest⟩ := hcaptures
  have hc := h.capture
  have hlt : s.index < t.captures.toList.length := (Array.getElem?_eq_some_iff.mp hc).1
  rw [← Array.getElem?_toList] at hc ⊢
  rw [← hrest, List.getElem?_append_left hlt, hc]

/-- A new captured symbol stands for what was captured. -/
theorem stands_capture (hc : c.IsVariable) :
    Stands ownOnly (t.capture c).2 (t.capture c).1 c where
  storage := rfl
  capture := by
    rw [captures_capture]
    exact Array.getElem?_push_size
  isVariable := hc
  mutability := rfl
  arity _ := rfl

/-- A root table is built by entering one built-in function after the other. -/
theorem ofBuiltins_induction {P : ScopeTable → Prop} (hempty : P {})
    (hinsert : ∀ (t : ScopeTable) (s : Symbol), s.storage = .builtin → P t → P (t.insert s))
    (names : List String) : P (.ofBuiltins names) := by
  have hfold : ∀ (symbols : List Symbol) (t : ScopeTable), (∀ s ∈ symbols, s.storage = .builtin) →
      P t → P (symbols.foldl ScopeTable.insert t) := by
    intro symbols
    induction symbols with
    | nil => exact fun _ _ ht => ht
    | cons s rest ih =>
      intro t hbuiltin ht
      obtain ⟨hs, hrest⟩ := List.forall_mem_cons.mp hbuiltin
      exact ih _ hrest (hinsert t s hs ht)
  refine hfold _ {} ?_ hempty
  intro s hs
  obtain ⟨⟨n, i⟩, -, rfl⟩ := List.mem_map.mp hs
  rfl

end ScopeTable

namespace Scopes

/-! ### Chains that can be built -/

/-- The tables of a chain, innermost first. -/
def tables (scopes : Scopes) : List ScopeTable :=
  scopes.current :: scopes.outer

/-- The chains that can be built from a root table with built-in functions. If `ownOnly` holds, the
number of parameters is recorded only for names that are not captured. -/
inductive Built (ownOnly : Prop) : Scopes → Prop where
  | root (names : List String) : Built ownOnly (.ofRoot (.ofBuiltins names))
  | enter {scopes : Scopes} : Built ownOnly scopes → Built ownOnly scopes.enter
  | enterNamed {scopes : Scopes} (name : String) (arity : Nat) : Built ownOnly scopes →
      Built ownOnly (scopes.enter.nameSelf name arity).2
  | define {scopes scopes' : Scopes} {name : String} {mutability : Mutability} {s : Symbol} :
      Built ownOnly scopes → scopes.define name mutability = .ok (s, scopes') →
      Built ownOnly scopes'
  | recordArity {scopes : Scopes} (name : String) (arity : Nat) : Built ownOnly scopes →
      (ownOnly → scopes.current.Binds name → scopes.current.Owns name) →
      Built ownOnly (scopes.recordArity name arity)
  | resolve {scopes scopes' : Scopes} {name : String} {s : Symbol} : Built ownOnly scopes →
      scopes.resolve name = .ok (s, scopes') → Built ownOnly scopes'
  | leave {scopes scopes' : Scopes} : Built ownOnly scopes → scopes.leave? = some scopes' →
      Built ownOnly scopes'

/-- Where a symbol leads, one hop for each table: it must be captured there, and gives way to the
symbol of the next table that was captured. -/
def follow : List ScopeTable → Symbol → Option Symbol
  | [], s => some s
  | t :: outer, s =>
    if s.storage = .captured then t.captures[s.index]?.bind (follow outer) else none

/-- How a name is found: the tables `before` become `after`, and `found` is the result. The name
belongs to the table `owner`, where it has the entry `own`. The tables `inner` are inside of it, and
become `inner'`; the tables `outside` are around it. -/
structure Resolution (ownOnly : Prop) (name : String) (before after : List ScopeTable)
    (found : Symbol) (inner inner' : List ScopeTable) (owner : ScopeTable)
    (outside : List ScopeTable) (own : Symbol) : Prop where
  before_eq : before = inner ++ owner :: outside
  entry : owner.symbols[name]? = some own
  owned : own.storage ≠ .captured
  innermost : ∀ t ∈ inner, ¬ t.Owns name
  /-- Only the tables inside the owner change, by one capture at most. -/
  after_eq : after = inner' ++ owner :: outside
  widens : List.Forall₂ (ScopeTable.Widens name) inner inner'
  /-- What the root has is not captured. -/
  ofRoot : outside = [] →
    (own.storage = .globalSlot ∨ own.storage = .builtin) ∧ found = own ∧ inner' = inner
  ofCurrent : inner = [] → found = own
  /-- What a function has is captured by those inside of it. -/
  ofOuter : outside ≠ [] → (own.storage = .localSlot ∨ own.storage = .self) ∧
    (inner ≠ [] → found.storage = .captured) ∧ found.mutability = own.mutability ∧
    (ownOnly → found.arity? = own.arity?) ∧ follow inner' found = some own

/-! ### What captured entries stand for -/

/-- The entries of the table `t` of a function are variables, and the captured ones stand for the
variable of that name in the table `next` around it. -/
def Inside (ownOnly : Prop) (next t : ScopeTable) : Prop :=
  ∀ (n : String) (s : Symbol), t.symbols[n]? = some s →
    s.name = n ∧ (s.storage = .localSlot ∨ s.storage = .self ∨
      ∃ c, next.symbols[n]? = some c ∧ t.Stands ownOnly s c)

/-- The chain ends in a root table, whose entries are globals and built-in functions, and its other
tables are those of functions. -/
inductive Chained (ownOnly : Prop) : ScopeTable → List ScopeTable → Prop where
  | root {t : ScopeTable} :
      (∀ (n : String) (s : Symbol), t.symbols[n]? = some s →
        s.name = n ∧ (s.storage = .globalSlot ∨ s.storage = .builtin)) →
      Chained ownOnly t []
  | inner {t next : ScopeTable} {outer : List ScopeTable} : Inside ownOnly next t →
      Chained ownOnly next outer → Chained ownOnly t (next :: outer)

section

variable {ownOnly : Prop} {t t₁ next next₁ : ScopeTable} {outer : List ScopeTable} {name : String}
  {s c : Symbol}

theorem Inside.widen (h : Inside ownOnly next t) (hnext : ScopeTable.Widens name next next₁) :
    Inside ownOnly next₁ t := by
  intro n s hs
  obtain ⟨hname, hlocal | hself | ⟨c, hc, hstands⟩⟩ := h n s hs
  · exact ⟨hname, .inl hlocal⟩
  · exact ⟨hname, .inr (.inl hself)⟩
  · exact ⟨hname, .inr (.inr ⟨c, hnext.entry hc, hstands⟩)⟩

/-- The entry of one name is replaced, and captures may be added. -/
theorem Inside.replace (h : Inside ownOnly next t)
    (hsymbols : ∀ n, t₁.symbols[n]? = if s.name = n then some s else t.symbols[n]?)
    (hcaptures : t.captures.toList <+: t₁.captures.toList)
    (hs : s.storage = .localSlot ∨ s.storage = .self ∨
      ∃ c, next.symbols[s.name]? = some c ∧ t₁.Stands ownOnly s c) : Inside ownOnly next t₁ := by
  intro n s' hs'
  rw [hsymbols n] at hs'
  split at hs'
  · next hn =>
    cases hs'
    exact ⟨hn, hn ▸ hs⟩
  · obtain ⟨hname, hlocal | hself | ⟨c, hc, hstands⟩⟩ := h n s' hs'
    · exact ⟨hname, .inl hlocal⟩
    · exact ⟨hname, .inr (.inl hself)⟩
    · exact ⟨hname, .inr (.inr ⟨c, hc, hstands.mono hcaptures⟩)⟩

theorem Inside.capture (h : Inside ownOnly next t) (hc : next.symbols[c.name]? = some c)
    (hvariable : c.IsVariable) : Inside ownOnly next (t.capture c).2 := by
  refine h.replace (s := (t.capture c).1) (ScopeTable.symbols_capture t c) ?_
    (.inr (.inr ⟨c, hc, ScopeTable.stands_capture hvariable⟩))
  rw [ScopeTable.captures_capture, Array.toList_push]
  exact List.prefix_append _ _

theorem Chained.name_eq (h : Chained ownOnly t outer) (hs : t.symbols[name]? = some s) :
    s.name = name := by
  cases h with
  | root hentries => exact (hentries name s hs).1
  | inner hentries _ => exact (hentries name s hs).1

theorem Chained.isVariable (h : Chained ownOnly t outer) (hs : t.symbols[name]? = some s)
    (hglobal : ¬ (s.storage = .globalSlot ∨ s.storage = .builtin)) : s.IsVariable := by
  cases h with
  | root hentries => exact absurd (hentries name s hs).2 hglobal
  | inner hentries _ =>
    rcases (hentries name s hs).2 with hlocal | hself | ⟨c, -, hstands⟩
    · exact .inl hlocal
    · exact .inr (.inr hself)
    · exact .inr (.inl hstands.storage)

/-- The entry of one name is replaced, and nothing is captured. What the new entry must satisfy
depends on where it stands, in the root or in a function. -/
theorem Chained.replace (h : Chained ownOnly t outer)
    (hsymbols : ∀ n, t₁.symbols[n]? = if s.name = n then some s else t.symbols[n]?)
    (hcaptures : t₁.captures = t.captures)
    (hroot : outer = [] → s.storage = .globalSlot ∨ s.storage = .builtin)
    (hinner : ∀ next outer', outer = next :: outer' →
      s.storage = .localSlot ∨ s.storage = .self ∨
        ∃ c, next.symbols[s.name]? = some c ∧ t.Stands ownOnly s c) :
    Chained ownOnly t₁ outer := by
  have hmono : t.captures.toList <+: t₁.captures.toList := hcaptures ▸ List.prefix_rfl
  cases h with
  | root hentries =>
    refine .root fun n s' hs' => ?_
    rw [hsymbols n] at hs'
    split at hs'
    · next hn =>
      cases hs'
      exact ⟨hn, hroot rfl⟩
    · exact hentries n s' hs'
  | @inner _ next outer' hentries hnext =>
    refine .inner (hentries.replace hsymbols hmono ?_) hnext
    obtain hlocal | hself | ⟨c, hc, hstands⟩ := hinner next outer' rfl
    · exact .inl hlocal
    · exact .inr (.inl hself)
    · exact .inr (.inr ⟨c, hc, hstands.mono hmono⟩)

theorem chained_empty (h : Chained ownOnly next outer) : Chained ownOnly {} (next :: outer) := by
  refine .inner (fun n s hs => ?_) h
  simp at hs

/-- Built-in functions are the only entries of a root table in the beginning. -/
theorem chained_ofBuiltins (ownOnly : Prop) (names : List String) :
    Chained ownOnly (.ofBuiltins names) [] := by
  refine ScopeTable.ofBuiltins_induction (P := fun t => Chained ownOnly t []) (.root ?_) ?_ names
  · intro n s hs
    simp at hs
  · intro t s hbuiltin ht
    refine ht.replace (ScopeTable.symbols_insert t s) rfl (fun _ => .inr hbuiltin) ?_
    intro _ _ hne
    cases hne

theorem Chained.define {scopes scopes' : Scopes} {mutability : Mutability}
    (h : Chained ownOnly scopes.current scopes.outer)
    (hdefine : scopes.define name mutability = .ok (s, scopes')) :
    Chained ownOnly scopes'.current scopes'.outer := by
  obtain ⟨hs, t, ht, rfl⟩ := define_ok hdefine
  refine h.replace ht.symbols ht.captures ?_ ?_
  · intro houter
    left
    rw [hs, slotStorage, isGlobal, houter]
    rfl
  · intro next outer' houter
    left
    rw [hs, slotStorage, isGlobal, houter]
    rfl

theorem Chained.recordArity (h : Chained ownOnly t outer) (arity : Nat)
    (hown : ownOnly → t.Binds name → t.Owns name) :
    Chained ownOnly (t.recordArity name arity) outer := by
  cases hs : t.symbols[name]? with
  | none => simpa [ScopeTable.recordArity, hs] using h
  | some s =>
    have hname := h.name_eq hs
    refine h.replace (s := { s with arity? := some arity }) (fun n => ?_) ?_ ?_ ?_
    · simp only [ScopeTable.recordArity, hs, Std.TreeMap.getElem?_insert, hname]
      simp
    · simp [ScopeTable.recordArity, hs]
    · rintro rfl
      cases h with
      | root hentries => exact (hentries name s hs).2
    · rintro next outer' rfl
      cases h with
      | inner hentries _ =>
        obtain ⟨-, hlocal | hself | ⟨c, hc, hstands⟩⟩ := hentries name s hs
        · exact .inl hlocal
        · exact .inr (.inl hself)
        · refine .inr (.inr ⟨c, hname ▸ hc, { hstands with arity := fun hstrict => ?_ }⟩)
          -- the name is captured, so the table does not have it as its own
          obtain ⟨s', hs', hne⟩ := hown hstrict ⟨s, hs⟩
          rw [hs] at hs'
          cases hs'
          exact absurd hstands.storage hne

end

/-! ### One table more -/

namespace Resolution

variable {ownOnly : Prop} {name : String} {before after : List ScopeTable} {found c own : Symbol}
  {inner inner' outside outer outer₁ : List ScopeTable} {owner t t₁ : ScopeTable}

theorem widens_head
    (h : Resolution ownOnly name (t :: outer) (t₁ :: outer₁) found inner inner' owner outside own) :
    ScopeTable.Widens name t t₁ := by
  have hbefore := h.before_eq
  have hafter := h.after_eq
  cases h.widens with
  | nil =>
    cases hbefore
    cases hafter
    exact .same
  | cons hwidens _ =>
    cases hbefore
    cases hafter
    exact hwidens

/-- A global or a built-in function belongs to the root. -/
theorem outside_eq_nil
    (h : Resolution ownOnly name before after found inner inner' owner outside own)
    (hglobal : found.storage = .globalSlot ∨ found.storage = .builtin) : outside = [] := by
  by_contra hne
  obtain ⟨hown, hcaptured, -⟩ := h.ofOuter hne
  by_cases hinner : inner = []
  · rw [h.ofCurrent hinner] at hglobal
    rcases hown with hown | hown <;> rw [hown] at hglobal <;> simp at hglobal
  · rw [hcaptured hinner] at hglobal
    simp at hglobal

/-- A variable belongs to a function. -/
theorem outside_ne_nil
    (h : Resolution ownOnly name before after c inner inner' owner outside own)
    (hc : c.IsVariable) : outside ≠ [] := by
  intro hnil
  obtain ⟨hown, rfl, -⟩ := h.ofRoot hnil
  rcases hown with hown | hown <;> rw [Symbol.IsVariable, hown] at hc <;> simp at hc

/-- A global or a built-in function passes through a table that does not know it. -/
theorem cons_global
    (h : Resolution ownOnly name before after found inner inner' owner outside own)
    (hglobal : found.storage = .globalSlot ∨ found.storage = .builtin) (ht : ¬ t.Owns name) :
    Resolution ownOnly name (t :: before) (t :: after) found (t :: inner) (t :: inner') owner
      outside own where
  before_eq := by rw [h.before_eq, List.cons_append]
  entry := h.entry
  owned := h.owned
  innermost := by simpa using ⟨ht, h.innermost⟩
  after_eq := by rw [h.after_eq, List.cons_append]
  widens := .cons .same h.widens
  ofRoot hnil := by
    obtain ⟨hown, hfound, hsame⟩ := h.ofRoot hnil
    exact ⟨hown, hfound, by rw [hsame]⟩
  ofCurrent hnil := by cases hnil
  ofOuter hne := absurd (h.outside_eq_nil hglobal) hne

/-- A variable is captured by a table that does not have it as its own. -/
theorem cons_captured
    (h : Resolution ownOnly name before after c inner inner' owner outside own)
    (hstands : t₁.Stands ownOnly found c) (ht : ¬ t.Owns name)
    (hwidens : ScopeTable.Widens name t t₁) :
    Resolution ownOnly name (t :: before) (t₁ :: after) found (t :: inner) (t₁ :: inner') owner
      outside own where
  before_eq := by rw [h.before_eq, List.cons_append]
  entry := h.entry
  owned := h.owned
  innermost := by simpa using ⟨ht, h.innermost⟩
  after_eq := by rw [h.after_eq, List.cons_append]
  widens := .cons hwidens h.widens
  ofRoot hnil := absurd hnil (h.outside_ne_nil hstands.isVariable)
  ofCurrent hnil := by cases hnil
  ofOuter hne := by
    obtain ⟨hown, -, hmutability, harity, hfollow⟩ := h.ofOuter hne
    refine ⟨hown, fun _ => hstands.storage, hstands.mutability.trans hmutability,
      fun hstrict => (hstands.arity hstrict).trans (harity hstrict), ?_⟩
    rw [follow, if_pos hstands.storage, hstands.capture, Option.bind_some, hfollow]

end Resolution

/-! ### The way outwards -/

section

variable {ownOnly : Prop} {name : String} {t t₁ next : ScopeTable}
  {outer outer₁ : List ScopeTable} {s : Symbol}

theorem resolveIn_of_entry (hs : t.symbols[name]? = some s) :
    resolveIn name t outer = .ok (s, t, outer) := by
  cases outer <;> rw [resolveIn, hs]

/-- A name with an entry in the innermost table is found there, and no table changes. -/
theorem Chained.resolution_of_entry (h : Chained ownOnly t outer)
    (hs : t.symbols[name]? = some s) :
    ∃ inner owner outside own, Resolution ownOnly name (t :: outer) (t :: outer) s inner inner owner
      outside own := by
  -- captured entries lead outwards, to an entry of the next table
  induction h generalizing s with
  | @root t hentries =>
    have hstorage := (hentries name s hs).2
    refine ⟨[], t, [], s, rfl, hs, ?_, by simp, rfl, .nil, fun _ => ⟨hstorage, rfl, rfl⟩,
      fun _ => rfl, fun hne => absurd rfl hne⟩
    rcases hstorage with hstorage | hstorage <;> simp [hstorage]
  | @inner t next outer hentries hnext ih =>
    have howner : s.storage = .localSlot ∨ s.storage = .self →
        Resolution ownOnly name (t :: next :: outer) (t :: next :: outer) s [] [] t (next :: outer)
          s := by
      intro hstorage
      refine ⟨rfl, hs, ?_, by simp, rfl, .nil, (by simp), fun _ => rfl, fun _ =>
        ⟨hstorage, fun hne => absurd rfl hne, rfl, fun _ => rfl, rfl⟩⟩
      rcases hstorage with hstorage | hstorage <;> simp [hstorage]
    rcases (hentries name s hs).2 with hlocal | hself | ⟨c, hc, hstands⟩
    · exact ⟨[], t, next :: outer, s, howner (.inl hlocal)⟩
    · exact ⟨[], t, next :: outer, s, howner (.inr hself)⟩
    · obtain ⟨inner, owner, outside, own, hresolution⟩ := ih hc
      refine ⟨t :: inner, owner, outside, own, hresolution.cons_captured hstands ?_ .same⟩
      rintro ⟨s', hs', hne⟩
      rw [hs] at hs'
      cases hs'
      exact hne hstands.storage

/-- What looking for a name leads to: the chain stays in order, the name is found where it belongs,
the same is found when it is looked for again, and a variable has an entry in the innermost
table. -/
structure Found (ownOnly : Prop) (name : String) (t : ScopeTable) (outer : List ScopeTable)
    (s : Symbol) (t₁ : ScopeTable) (outer₁ : List ScopeTable) : Prop where
  chained : Chained ownOnly t₁ outer₁
  resolution : ∃ inner inner' owner outside own,
    Resolution ownOnly name (t :: outer) (t₁ :: outer₁) s inner inner' owner outside own
  again : resolveIn name t₁ outer₁ = .ok (s, t₁, outer₁)
  entry : ¬ (s.storage = .globalSlot ∨ s.storage = .builtin) → t₁.symbols[name]? = some s

theorem Chained.found_entry (h : Chained ownOnly t outer) (hs : t.symbols[name]? = some s) :
    Found ownOnly name t outer s t outer := by
  obtain ⟨inner, owner, outside, own, hresolution⟩ := h.resolution_of_entry hs
  exact ⟨h, ⟨inner, inner, owner, outside, own, hresolution⟩, resolveIn_of_entry hs, fun _ => hs⟩

theorem Chained.found (h : Chained ownOnly t outer)
    (hresolve : resolveIn name t outer = .ok (s, t₁, outer₁)) :
    Found ownOnly name t outer s t₁ outer₁ := by
  -- the search goes outwards until a table has an entry
  induction outer generalizing s t t₁ outer₁ with
  | nil =>
    cases hentry : t.symbols[name]? with
    | none =>
      rw [resolveIn, hentry] at hresolve
      cases hresolve
    | some found =>
      rw [resolveIn_of_entry hentry] at hresolve
      cases hresolve
      exact h.found_entry hentry
  | cons next outer ih =>
    cases hentry : t.symbols[name]? with
    | some found =>
      rw [resolveIn_of_entry hentry] at hresolve
      cases hresolve
      exact h.found_entry hentry
    | none =>
      have hfree : ¬ t.Binds name := by
        rintro ⟨s, hs⟩
        simp [hentry] at hs
      have howns : ¬ t.Owns name := by
        rintro ⟨s, hs, -⟩
        exact hfree ⟨s, hs⟩
      obtain ⟨s', next₁, outer', hrest, hcase⟩ := resolveIn_cons_ok hentry hresolve
      cases h with
      | inner hinside hnext =>
        have hfound := ih hnext hrest
        obtain ⟨inner, inner', owner, outside, own, hresolution⟩ := hfound.resolution
        have hinside₁ := hinside.widen hresolution.widens_head
        rcases hcase with ⟨hglobal, heq⟩ | ⟨hvariable, heq⟩
        · -- a global or a built-in function: this table stays as it is
          cases heq
          refine ⟨.inner hinside₁ hfound.chained,
            ⟨_, _, _, _, _, hresolution.cons_global hglobal howns⟩, ?_,
            fun hne => absurd hglobal hne⟩
          rw [resolveIn, hentry, hfound.again]
          rcases hglobal with hglobal | hglobal <;> simp only [bind, Except.bind, hglobal] <;> rfl
        · -- a variable of a function around: this table captures it
          cases heq
          have hs' := hfound.entry hvariable
          have hname : s'.name = name := hfound.chained.name_eq hs'
          have hisVariable := hfound.chained.isVariable hs' hvariable
          have hnew : (t.capture s').2.symbols[name]? = some (t.capture s').1 := by
            rw [ScopeTable.symbols_capture, if_pos hname]
          exact ⟨.inner (hinside₁.capture (hname ▸ hs') hisVariable) hfound.chained,
            ⟨_, _, _, _, _, hresolution.cons_captured (ScopeTable.stands_capture hisVariable) howns
              (.capture hname hfree)⟩,
            resolveIn_of_entry hnew, fun _ => hnew⟩

/-- A name is found if a table of the chain has an entry for it. -/
theorem resolveIn_ok_of_binds (h : ∃ u ∈ t :: outer, u.Binds name) :
    ∃ s t₁ outer₁, resolveIn name t outer = .ok (s, t₁, outer₁) := by
  induction outer generalizing t with
  | nil =>
    obtain ⟨u, hu, s, hs⟩ := h
    rw [List.mem_singleton.mp hu] at hs
    exact ⟨s, t, [], resolveIn_of_entry hs⟩
  | cons next outer ih =>
    cases hentry : t.symbols[name]? with
    | some s => exact ⟨s, t, next :: outer, resolveIn_of_entry hentry⟩
    | none =>
      obtain ⟨u, hu, s, hs⟩ := h
      have hne : u ≠ t := by
        rintro rfl
        simp [hentry] at hs
      obtain ⟨s', next₁, outer', hrest⟩ := ih ⟨u, (List.mem_cons.mp hu).resolve_left hne, s, hs⟩
      rw [resolveIn, hentry, hrest]
      cases hstorage : s'.storage <;> simp only [bind, Except.bind, hstorage] <;>
        exact ⟨_, _, _, rfl⟩

/-- A name without an entry in any table is reported. -/
theorem resolveIn_error (h : ∀ u ∈ t :: outer, ¬ u.Binds name) :
    resolveIn name t outer = .error (.unresolved name) := by
  have hentry : t.symbols[name]? = none := by
    rw [← Option.not_isSome_iff_eq_none, Option.isSome_iff_exists]
    exact h t List.mem_cons_self
  induction outer generalizing t with
  | nil => rw [resolveIn, hentry]
  | cons next outer ih =>
    have hrest : ∀ u ∈ next :: outer, ¬ u.Binds name := fun u hu => h u (List.mem_cons_of_mem t hu)
    rw [resolveIn, hentry, ih hrest ?_]
    · rfl
    · rw [← Option.not_isSome_iff_eq_none, Option.isSome_iff_exists]
      exact hrest next List.mem_cons_self

end

theorem resolve_eq_ok_iff {a b : Scopes} {name : String} {s : Symbol} :
    a.resolve name = .ok (s, b) ↔
      resolveIn name a.current a.outer = .ok (s, b.current, b.outer) := by
  rw [resolve]
  cases resolveIn name a.current a.outer with
  | error e => exact ⟨fun h => (by cases h), fun h => (by cases h)⟩
  | ok found =>
    obtain ⟨s', t, outer⟩ := found
    constructor
    · intro h
      cases h
      rfl
    · intro h
      cases h
      rfl

/-! ### Lookups that fail -/

/-- Finds a name, one change of the tables after the other. The tables are given as they are in the
end, also where the name was not found. -/
def lookupIn (name : String) :
    ScopeTable → List ScopeTable → Except ScopeError Symbol × ScopeTable × List ScopeTable
  | table, [] =>
    match table.symbols[name]? with
    | some symbol => (.ok symbol, table, [])
    | none => (.error (.unresolved name), table, [])
  | table, next :: outer =>
    match table.symbols[name]? with
    | some symbol => (.ok symbol, table, next :: outer)
    | none =>
      match lookupIn name next outer with
      | (.error e, next, outer) => (.error e, table, next :: outer)
      | (.ok symbol, next, outer) =>
        match symbol.storage with
        | .globalSlot | .builtin => (.ok symbol, table, next :: outer)
        | _ =>
          let (symbol, table) := table.capture symbol
          (.ok symbol, table, next :: outer)

/-- Finding a name as a step on the chain. -/
def lookup (name : String) : ExceptT ScopeError (StateM Scopes) Symbol :=
  .mk fun scopes =>
    let (result, current, outer) := lookupIn name scopes.current scopes.outer
    (result, ⟨current, outer⟩)

/-- Nothing is changed before the name is found: the tables between capture it on the way back. -/
theorem lookupIn_eq (name : String) (t : ScopeTable) (outer : List ScopeTable) :
    lookupIn name t outer =
      match resolveIn name t outer with
      | .ok (s, t₁, outer₁) => (.ok s, t₁, outer₁)
      | .error e => (.error e, t, outer) := by
  induction outer generalizing t with
  | nil =>
    rw [lookupIn, resolveIn]
    cases t.symbols[name]? <;> rfl
  | cons next outer ih =>
    rw [lookupIn, resolveIn]
    cases t.symbols[name]? with
    | some s => rfl
    | none =>
      rw [ih next]
      cases resolveIn name next outer with
      | error e => rfl
      | ok found =>
        obtain ⟨⟨_, storage, _, _, _⟩, next₁, outer₁⟩ := found
        cases storage <;> rfl

theorem run_lookup (scopes : Scopes) (name : String) :
    ((lookup name).run.run scopes).run =
      match scopes.resolve name with
      | .ok (s, after) => (.ok s, after)
      | .error e => (.error e, scopes) := by
  have hrun : ((lookup name).run.run scopes).run =
      ((lookupIn name scopes.current scopes.outer).1,
        ⟨(lookupIn name scopes.current scopes.outer).2.1,
          (lookupIn name scopes.current scopes.outer).2.2⟩) := rfl
  rw [hrun, lookupIn_eq, resolve]
  cases resolveIn name scopes.current scopes.outer <;> rfl

/-! ### All chains -/

theorem Built.chained {ownOnly : Prop} {scopes : Scopes} (h : Built ownOnly scopes) :
    Chained ownOnly scopes.current scopes.outer := by
  induction h with
  | root names => exact chained_ofBuiltins ownOnly names
  | enter _ ih => exact chained_empty ih
  | enterNamed name arity _ ih =>
    refine (chained_empty ih).replace (ScopeTable.symbols_insert {} _) rfl ?_ ?_
    · intro hnil
      cases hnil
    · intro _ _ _
      exact .inr (.inl rfl)
  | define _ hdefine ih => exact ih.define hdefine
  | recordArity name arity _ hown ih => exact ih.recordArity arity hown
  -- only a lookup enters symbols in more than one table
  | resolve _ hresolve ih => exact (ih.found (resolve_eq_ok_iff.mp hresolve)).chained
  | @leave scopes scopes' _ hleave ih =>
    obtain ⟨current, outer⟩ := scopes
    cases ih with
    | root _ => cases hleave
    | inner _ hnext =>
      cases hleave
      exact hnext

/-- A name is found exactly if a table of the chain has an entry for it. Then it is the one of the
innermost table that has it as its own, and it is found again without any change. A lookup that
fails changes no table. -/
theorem resolve_lexical {ownOnly : Prop} {scopes : Scopes} (h : Built ownOnly scopes)
    (name : String) :
    (scopes.resolve name = .error (.unresolved name) ↔ ∀ t ∈ scopes.tables, ¬ t.Binds name) ∧
      ((∃ t ∈ scopes.tables, t.Binds name) → ∃ found after,
        scopes.resolve name = .ok (found, after) ∧
        (∃ inner inner' owner outside own, Resolution ownOnly name scopes.tables after.tables found
          inner inner' owner outside own) ∧
        after.resolve name = .ok (found, after)) ∧
      (∀ s after, ((lookup name).run.run scopes).run = (.ok s, after) ↔
        scopes.resolve name = .ok (s, after)) ∧
      ∀ e after, ((lookup name).run.run scopes).run = (.error e, after) ↔
        scopes.resolve name = .error e ∧ after = scopes := by
  refine ⟨?_, ?_, ?_⟩
  · constructor
    · intro herror t ht hbinds
      obtain ⟨s, t₁, outer₁, hok⟩ := resolveIn_ok_of_binds ⟨t, ht, hbinds⟩
      have hresolve : scopes.resolve name = .ok (s, ⟨t₁, outer₁⟩) := resolve_eq_ok_iff.mpr hok
      rw [hresolve] at herror
      cases herror
    · intro hnone
      rw [resolve, resolveIn_error hnone]
      rfl
  · intro hbinds
    obtain ⟨found, t₁, outer₁, hok⟩ := resolveIn_ok_of_binds hbinds
    have hfound := h.chained.found hok
    exact ⟨found, ⟨t₁, outer₁⟩, resolve_eq_ok_iff.mpr hok, hfound.resolution,
      resolve_eq_ok_iff.mpr hfound.again⟩
  · rw [run_lookup]
    cases scopes.resolve name with
    | ok found => simp [Prod.ext_iff]
    | error e => simp [eq_comm]

/-- A function `f` with a variable `x` that is known to be a function of two parameters. -/
def exampleOwner : ScopeTable :=
  let table := (({} : ScopeTable).nameSelf "f" 1).2.insert ⟨"x", .localSlot, 0, .mutable, none⟩
  { table with definitions := 1 }.recordArity "x" 2

/-- A function inside of it that has captured `x`. -/
def exampleInner : ScopeTable :=
  (({} : ScopeTable).capture ⟨"x", .localSlot, 0, .mutable, some 2⟩).2

/-- A program with these two functions. -/
def exampleScopes : Scopes :=
  ⟨exampleInner, [exampleOwner, .ofBuiltins ["len"]]⟩

theorem built_exampleScopes (ownOnly : Prop) : Built ownOnly exampleScopes := by
  have hnamed : Built ownOnly _ := (Built.root ["len"]).enterNamed "f" 1
  have hdeclared := hnamed.define (show define _ "x" .mutable = .ok (_, _) from rfl)
  have howner := hdeclared.recordArity "x" 2 fun _ _ => ⟨_, rfl, by decide⟩
  exact howner.enter.resolve (show resolve _ "x" = .ok (_, _) from rfl)

/-- From a third function, the captured `x` is captured once more. -/
theorem resolve_lexical_exampleScopes :
    Built True exampleScopes.enter ∧ (∃ t ∈ exampleScopes.enter.tables, t.Binds "x") ∧
      ∃ found after, exampleScopes.enter.resolve "x" = .ok (found, after) ∧
        (∃ inner inner' owner outside own, Resolution True "x" exampleScopes.enter.tables
          after.tables found inner inner' owner outside own) ∧
        after.resolve "x" = .ok (found, after) := by
  have hbuilt := (built_exampleScopes True).enter
  have hbinds : ∃ t ∈ exampleScopes.enter.tables, t.Binds "x" :=
    ⟨exampleInner, by simp [tables, enter, exampleScopes], _, rfl⟩
  exact ⟨hbuilt, hbinds, (resolve_lexical hbuilt "x").2.1 hbinds⟩

/-- If a number of parameters is recorded for a captured name, what is found need not agree with
the table that the name belongs to. -/
theorem not_resolution_of_recorded_capture :
    ¬ ∀ scopes, Built False scopes → ∀ name found after,
      scopes.resolve name = .ok (found, after) → ∃ inner inner' owner outside own,
        Resolution True name scopes.tables after.tables found inner inner' owner outside own := by
  intro h
  have hbuilt := (built_exampleScopes False).recordArity "x" 3 False.elim
  obtain ⟨inner, inner', owner, outside, own, hresolution⟩ := h _ hbuilt "x" _ _ rfl
  have hbefore := hresolution.before_eq
  have hentry := hresolution.entry
  rcases inner with _ | ⟨t, _ | ⟨t', rest⟩⟩
  · -- the innermost table has captured the name
    cases hbefore
    cases hentry
    exact hresolution.owned rfl
  · cases hbefore
    cases hentry
    have harity := (hresolution.ofOuter (by simp)).2.2.2.1 trivial
    cases harity
  · cases congrArg (fun ts => ts[1]?) hbefore
    exact hresolution.innermost exampleOwner (by simp) ⟨_, rfl, by decide⟩

end Scopes

end Bytescript
