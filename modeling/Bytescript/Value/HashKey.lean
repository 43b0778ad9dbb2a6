/-
Keys of hashes and the entries they lead to.

Integers, strings and booleans can be keys, ordered in this sequence. The entries of a hash are
kept in the order of their keys, each key once, so two hashes with the same content have the
same entries. Their type sees to it: behind an entry there are only keys that come after its own.
-/
import Bytescript.Text.Quoted

namespace Bytescript

/-- Keys of hashes. -/
inductive HashKey where
  | integer (value : Int64)
  | string (value : String)
  | boolean (value : Bool)
  deriving DecidableEq, Repr

namespace HashKey

/-- The order of keys: integers, then strings, then booleans. -/
def before : HashKey → HashKey → Bool
  | integer a, integer b => a < b
  | integer _, _ => true
  | string _, integer _ => false
  | string a, string b => a < b
  | string _, boolean _ => true
  | boolean a, boolean b => !a && b
  | boolean _, _ => false

/-- Does the key come after a bound, if there is one? -/
def isAfter (key : HashKey) : (bound : Option HashKey) → Bool
  | none => true
  | some bound => bound.before key

/-- A key as it is shown. -/
def render : HashKey → String
  | integer value => toString value.toInt
  | string value => Text.quote value
  | boolean value => if value then "true" else "false"

theorem before_or_eq_or_before (a b : HashKey) :
    a.before b = true ∨ a = b ∨ b.before a = true := by
  cases a with
  | integer a =>
    cases b with
    | integer b =>
      by_cases h : a = b
      · exact .inr (.inl (by rw [h]))
      · rcases Int64.lt_or_lt_of_ne h with h | h
        · exact .inl (decide_eq_true h)
        · exact .inr (.inr (decide_eq_true h))
    | string | boolean => exact .inl rfl
  | string a =>
    cases b with
    | integer => exact .inr (.inr rfl)
    | string b =>
      by_cases h : a < b
      · exact .inl (decide_eq_true h)
      · by_cases h' : b < a
        · exact .inr (.inr (decide_eq_true h'))
        · refine .inr (.inl ?_)
          rw [String.le_antisymm (String.not_lt.mp h') (String.not_lt.mp h)]
    | boolean => exact .inl rfl
  | boolean a =>
    cases b with
    | integer | string => exact .inr (.inr rfl)
    | boolean b => cases a <;> cases b <;> decide

theorem isAfter_none (key : HashKey) : key.isAfter none = true := rfl

theorem isAfter_of_not_isAfter {a b : HashKey} (hne : a ≠ b) (h : ¬ b.isAfter (some a) = true) :
    a.isAfter (some b) = true :=
  ((before_or_eq_or_before a b).resolve_left h).resolve_left hne

end HashKey

/-- Entries in the order of their keys, which all come after the bound. -/
inductive HashEntries (α : Type) : (bound : Option HashKey) → Type where
  | nil {bound : Option HashKey} : HashEntries α bound
  | cons {bound : Option HashKey} (key : HashKey) (value : α) (after : key.isAfter bound = true)
      (rest : HashEntries α (some key)) : HashEntries α bound

namespace HashEntries

variable {α : Type}

/-- The keys with their values. -/
def toList {bound : Option HashKey} : HashEntries α bound → List (HashKey × α)
  | nil => []
  | cons key value _ rest => (key, value) :: rest.toList

/-- The number of entries. -/
def length {bound : Option HashKey} : HashEntries α bound → Nat
  | nil => 0
  | cons _ _ _ rest => rest.length + 1

/-- Adds an entry at its place, unless there is one with the same key. -/
def insertNew (key : HashKey) (value : α) {bound : Option HashKey}
    (after : key.isAfter bound = true) : HashEntries α bound → HashEntries α bound
  | nil => cons key value after nil
  | cons other v otherAfter rest =>
    if heq : key = other then cons other v otherAfter rest
    else if h : other.isAfter (some key) = true then cons key value after (cons other v h rest)
    else cons other v otherAfter (insertNew key value (HashKey.isAfter_of_not_isAfter heq h) rest)

/-- The entries given by pairs; of two pairs with the same key the later one counts. The pairs are
sorted first, pairs with one key staying in their order, so that each finds its place at once. -/
def ofPairs (pairs : List (HashKey × α)) : HashEntries α none :=
  (pairs.mergeSort fun a b => !b.1.before a.1).foldr
    (fun (key, value) entries => insertNew key value key.isAfter_none entries) nil

/-- The value under a key. -/
def find? (key : HashKey) {bound : Option HashKey} : HashEntries α bound → Option α
  | nil => none
  | cons other value _ rest => if key = other then some value else find? key rest

end HashEntries

end Bytescript
