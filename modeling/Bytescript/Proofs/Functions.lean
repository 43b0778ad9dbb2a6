/-
The functions inside values.

`Value.Every P v` says that every function and closure inside `v` satisfies `P`: in the items of
arrays, in the entries of hashes and among the captured values of closures. Operations of the
language make no functions: what they give holds only functions of their operands
(`yields_binary`, `yields_unary`, `yields_index`, `yields_hashOfPairs`,
`Builtin.yields_evaluate`). When they fail, the program has made a mistake (`Fault.IsMistake`):
no operation complains about the code or the limits of the machine.
-/
import Bytescript.Machine.Native

namespace Bytescript

/-- A fault that comes from the values a program has computed. -/
def Fault.IsMistake (fault : Fault) : Prop :=
  fault.kind ∈ [ErrorKind.unhashableKey, .notCallable, .wrongArgumentCount, .notIndexable,
    .typeError, .divisionByZero, .builtinError]

namespace Value

variable {P Q : Nat → FunctionCode → List Value → Prop}

mutual

/-- Every function inside a value satisfies `P`, which is given its number, its code and its
captured values. -/
def Every (P : Nat → FunctionCode → List Value → Prop) : Value → Prop
  | array items => EveryItem P items
  | hash entries => EveryEntry P entries
  | function identity code => P identity code []
  | closure identity code free => P identity code free ∧ EveryItem P free
  | null | boolean _ | integer _ | float _ | string _ | builtin _ => True

/-- Every function inside the items of an array satisfies `P`. -/
def EveryItem (P : Nat → FunctionCode → List Value → Prop) : List Value → Prop
  | [] => True
  | v :: rest => v.Every P ∧ EveryItem P rest

/-- Every function inside the entries of a hash satisfies `P`. -/
def EveryEntry (P : Nat → FunctionCode → List Value → Prop) {bound : Option HashKey} :
    HashEntries Value bound → Prop
  | .nil => True
  | .cons _ v _ rest => v.Every P ∧ EveryEntry P rest

end

theorem everyItem_iff {items : List Value} : EveryItem P items ↔ ∀ v ∈ items, v.Every P := by
  induction items with
  | nil => simp [EveryItem]
  | cons v rest ih => simp [EveryItem, ih]

@[simp]
theorem every_array {items : List Value} :
    (array items).Every P ↔ ∀ v ∈ items, v.Every P := everyItem_iff

@[simp]
theorem every_function {identity : Nat} {code : FunctionCode} :
    (function identity code).Every P ↔ P identity code [] := Iff.rfl

@[simp]
theorem every_closure {identity : Nat} {code : FunctionCode} {free : List Value} :
    (closure identity code free).Every P ↔ P identity code free ∧ ∀ v ∈ free, v.Every P := by
  rw [Every, everyItem_iff]

@[simp] theorem every_null : null.Every P := trivial
@[simp] theorem every_boolean (b : Bool) : (boolean b).Every P := trivial
@[simp] theorem every_integer (n : Int64) : (integer n).Every P := trivial
@[simp] theorem every_float (x : Binary64) : (float x).Every P := trivial
@[simp] theorem every_string (s : String) : (string s).Every P := trivial
@[simp] theorem every_builtin (b : Builtin) : (builtin b).Every P := trivial

mutual

theorem Every.mono (h : ∀ identity code free, P identity code free → Q identity code free) :
    ∀ {v : Value}, v.Every P → v.Every Q
  | array _, hv => EveryItem.mono h hv
  | hash _, hv => EveryEntry.mono h hv
  | function _ _, hv => h _ _ _ hv
  | closure _ _ _, hv => ⟨h _ _ _ hv.1, EveryItem.mono h hv.2⟩
  | null, _ | boolean _, _ | integer _, _ | float _, _ | string _, _ | builtin _, _ => trivial

theorem EveryItem.mono (h : ∀ identity code free, P identity code free → Q identity code free) :
    ∀ {items : List Value}, EveryItem P items → EveryItem Q items
  | [], _ => trivial
  | _ :: _, hv => ⟨Every.mono h hv.1, EveryItem.mono h hv.2⟩

theorem EveryEntry.mono (h : ∀ identity code free, P identity code free → Q identity code free) :
    ∀ {bound : Option HashKey} {entries : HashEntries Value bound},
      EveryEntry P entries → EveryEntry Q entries
  | _, .nil, _ => trivial
  | _, .cons _ _ _ _, hv => ⟨Every.mono h hv.1, EveryEntry.mono h hv.2⟩

end

/-! ### Operators -/

/-- A result that, if it is a value, holds only functions that satisfy `P`, and otherwise is a
mistake of the program. -/
def Yields (P : Nat → FunctionCode → List Value → Prop) : Except Fault Value → Prop
  | .ok v => v.Every P
  | .error fault => fault.IsMistake

theorem yields_unsupported (op : Opcode) (a b : Value) :
    Yields P (.error (unsupported op a b)) := by
  simp [Yields, Fault.IsMistake, unsupported, Fault.kind]

theorem yields_integerOperation (op : Opcode) (a b : Int64) :
    Yields P (integerOperation op a b) := by
  unfold integerOperation
  split
  case h_4 | h_5 =>
    split
    · simp [Yields, Fault.IsMistake, Fault.kind]
    · trivial
  case h_8 => exact yields_unsupported _ _ _
  all_goals trivial

theorem yields_floatOperation (op : Opcode) (a b : Binary64) :
    Yields P (floatOperation op a b) := by
  unfold floatOperation
  split
  case h_8 => exact yields_unsupported _ _ _
  all_goals trivial

theorem yields_stringOperation (op : Opcode) (a b : String) :
    Yields P (stringOperation op a b) := by
  unfold stringOperation
  split
  case h_4 => exact yields_unsupported _ _ _
  all_goals trivial

theorem yields_binary (op : Opcode) (a b : Value) : Yields P (Value.binary op a b) := by
  unfold Value.binary
  split
  · trivial
  · trivial
  · split
    · exact yields_integerOperation _ _ _
    · exact yields_floatOperation _ _ _
    · exact yields_floatOperation _ _ _
    · exact yields_floatOperation _ _ _
    · exact yields_stringOperation _ _ _
    · exact yields_unsupported _ _ _

theorem yields_unary (op : Opcode) (v : Value) : Yields P (Value.unary op v) := by
  unfold Value.unary
  split
  case h_4 => simp [Yields, Fault.IsMistake, Fault.kind]
  all_goals trivial

/-! ### Collections -/

theorem isMistake_of_toKey {v : Value} {fault : Fault} (h : v.toKey = .error fault) :
    fault.IsMistake := by
  unfold toKey at h
  split at h
  · cases h
  · cases h
    simp [Fault.IsMistake, Fault.kind]

theorem every_of_find? {key : HashKey} {bound : Option HashKey} {entries : HashEntries Value bound}
    {v : Value} (h : EveryEntry P entries) (hfind : HashEntries.find? key entries = some v) :
    v.Every P := by
  induction entries with
  | nil => cases hfind
  | cons other w _ rest ih =>
    rw [HashEntries.find?] at hfind
    split at hfind
    · cases hfind
      exact h.1
    · exact ih h.2 hfind

theorem every_itemAt {items : List Value} (h : ∀ v ∈ items, v.Every P) (i : Int64) :
    (itemAt items i).Every P := by
  unfold itemAt
  split
  · trivial
  · rw [List.getD_eq_getElem?_getD]
    cases hi : items[i.toNatClampNeg]? with
    | none => trivial
    | some v => exact h v (List.mem_of_getElem? hi)

theorem yields_index {container : Value} (h : container.Every P) (key : Value) :
    Yields P (Value.index container key) := by
  unfold Value.index
  split
  · exact every_itemAt (every_array.mp h) _
  · next entries =>
    cases hkey : key.toKey with
    | error fault => exact isMistake_of_toKey hkey
    | ok k =>
      show ((HashEntries.find? k entries).getD null).Every P
      cases hfind : HashEntries.find? k entries with
      | none => trivial
      | some v => exact every_of_find? h hfind
  · simp [Yields, Fault.IsMistake, Fault.kind]

theorem everyEntry_insertNew {key : HashKey} {v : Value} {bound : Option HashKey}
    {after : key.isAfter bound = true} {entries : HashEntries Value bound} (hv : v.Every P)
    (h : EveryEntry P entries) : EveryEntry P (entries.insertNew key v after) := by
  induction entries with
  | nil => exact ⟨hv, trivial⟩
  | cons other w _ rest ih =>
    rw [HashEntries.insertNew]
    split
    · exact h
    · split
      · exact ⟨hv, h⟩
      · exact ⟨h.1, ih h.2⟩

theorem everyEntry_ofPairs {pairs : List (HashKey × Value)} (h : ∀ pair ∈ pairs, pair.2.Every P) :
    EveryEntry P (HashEntries.ofPairs pairs) := by
  rw [HashEntries.ofPairs]
  -- sorting keeps the pairs, and inserting them adds nothing else
  replace h : ∀ pair ∈ pairs.mergeSort fun a b => !b.1.before a.1, pair.2.Every P :=
    fun pair hpair => h pair ((List.mergeSort_perm pairs _).mem_iff.mp hpair)
  revert h
  induction pairs.mergeSort fun a b => !b.1.before a.1 with
  | nil => exact fun _ => trivial
  | cons first rest ih =>
    intro h
    obtain ⟨hfirst, hrest⟩ := List.forall_mem_cons.mp h
    exact everyEntry_insertNew hfirst (ih hrest)

theorem every_of_keyedPairs {pairs : List (Value × Value)} {keyed : List (HashKey × Value)}
    (h : ∀ pair ∈ pairs, pair.2.Every P) (hkeyed : keyedPairs pairs = .ok keyed) :
    ∀ entry ∈ keyed, entry.2.Every P := by
  induction pairs generalizing keyed with
  | nil =>
    cases hkeyed
    simp
  | cons pair rest ih =>
    obtain ⟨k, v⟩ := pair
    rw [keyedPairs] at hkeyed
    cases hkey : k.toKey with
    | error fault =>
      rw [hkey] at hkeyed
      cases hkeyed
    | ok key =>
      cases hrest : keyedPairs rest with
      | error fault =>
        rw [hkey, hrest] at hkeyed
        cases hkeyed
      | ok others =>
        rw [hkey, hrest] at hkeyed
        cases hkeyed
        intro entry hentry
        rcases List.mem_cons.mp hentry with rfl | hentry
        · exact h (k, v) (by simp)
        · exact ih (fun p hp => h p (by simp [hp])) hrest entry hentry

theorem isMistake_of_keyedPairs {pairs : List (Value × Value)} {fault : Fault}
    (h : keyedPairs pairs = .error fault) : fault.IsMistake := by
  induction pairs with
  | nil => cases h
  | cons pair rest ih =>
    obtain ⟨k, v⟩ := pair
    rw [keyedPairs] at h
    cases hkey : k.toKey with
    | error fault =>
      rw [hkey] at h
      cases h
      exact isMistake_of_toKey hkey
    | ok key =>
      cases hrest : keyedPairs rest with
      | error fault =>
        rw [hkey, hrest] at h
        cases h
        exact ih hrest
      | ok others =>
        rw [hkey, hrest] at h
        cases h

theorem yields_hashOfPairs {pairs : List (Value × Value)} (h : ∀ pair ∈ pairs, pair.2.Every P) :
    Yields P (hashOfPairs pairs) := by
  rw [hashOfPairs]
  cases hkeyed : keyedPairs pairs with
  | error fault => exact isMistake_of_keyedPairs hkeyed
  | ok keyed => exact everyEntry_ofPairs (every_of_keyedPairs h hkeyed)

end Value

/-! ### Built-in functions -/

namespace Builtin

open Value

variable {P : Nat → FunctionCode → List Value → Prop}

/-- What is done with the items of an array argument. -/
theorem yields_arrayArgument_bind (b : Builtin) {v : Value} (hv : v.Every P)
    {f : List Value → Except Fault Value}
    (h : ∀ items : List Value, (∀ v ∈ items, v.Every P) → Yields P (f items)) :
    Yields P (b.arrayArgument v >>= f) := by
  cases v with
  | array items => exact h items (every_array.mp hv)
  | null | boolean | integer | float | string | hash | builtin | function | closure =>
    exact (by simp [Fault.IsMistake, Fault.kind] : Fault.IsMistake (.notAnArray _ _))

theorem yields_length (v : Value) : Yields P (length v) := by
  unfold length
  split
  case h_4 => simp [Yields, Fault.IsMistake, Fault.kind]
  all_goals trivial

theorem yields_evaluate (b : Builtin) {args : List Value} (h : ∀ v ∈ args, v.Every P) :
    Yields P (b.evaluate args) := by
  unfold evaluate
  -- `puts`, `len`, `first`, `last`, `rest` and `push`, then wrong numbers of arguments
  split
  · trivial
  · exact yields_length _
  · refine yields_arrayArgument_bind _ (h _ (by simp)) fun items hitems => ?_
    cases items with
    | nil => trivial
    | cons v rest => exact hitems v (by simp)
  · refine yields_arrayArgument_bind _ (h _ (by simp)) fun items hitems => ?_
    show (items.getLastD .null).Every P
    rw [List.getLastD_eq_getLast?]
    cases hlast : items.getLast? with
    | none => trivial
    | some v => exact hitems v (List.mem_of_getLast? hlast)
  · refine yields_arrayArgument_bind _ (h _ (by simp)) fun items hitems => ?_
    cases items with
    | nil => trivial
    | cons v rest => exact every_array.mpr fun w hw => hitems w (by simp [hw])
  · next item =>
    refine yields_arrayArgument_bind _ (h _ (by simp)) fun items hitems => ?_
    refine every_array.mpr fun w hw => ?_
    rcases List.mem_append.mp hw with hw | hw
    · exact hitems w hw
    · rw [List.mem_singleton.mp hw]
      exact h item (by simp)
  · simp [Yields, Fault.IsMistake, Fault.kind]
  · simp [Yields, Fault.IsMistake, Fault.kind]

end Builtin

end Bytescript
