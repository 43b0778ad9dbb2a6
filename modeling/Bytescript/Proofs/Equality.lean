/-
Equality of values without floats is an equivalence.

Main statement: on values without a float at any depth the operator `==` is reflexive, symmetric
and transitive, `!=` is its negation, two hashes are equal if they have equally many entries and
each entry of one has an equal one in the other, and equal values can stand for each other as keys
(`equal_equivalence`).

Design notes: `==` compares what `Value.compared` leaves of a value, of functions and closures their
number (`equal_iff_compared`). This is the one induction over values; being an equivalence is then
a matter of `=`.
-/
import Bytescript.Proofs.FiniteMaps
import Mathlib.Data.List.Perm.Subperm

namespace Bytescript

namespace Value

/-! ### Values without floats -/

mutual

/-- There is no float in the value, however deep. Functions and closures are not looked into. -/
def isFloatFree : Value → Bool
  | float _ => false
  | array items => areFloatFree items
  | hash entries => haveFloatFree entries
  | _ => true

/-- There is no float in the items of an array. -/
def areFloatFree : List Value → Bool
  | [] => true
  | v :: rest => isFloatFree v && areFloatFree rest

/-- There is no float in the entries of a hash. -/
def haveFloatFree {bound : Option HashKey} : HashEntries Value bound → Bool
  | .nil => true
  | .cons _ v _ rest => isFloatFree v && haveFloatFree rest

end

/-! ### What is compared -/

mutual

/-- What is compared of a value: of functions and closures only their number. -/
def compared : Value → Value
  | array items => array (comparedItems items)
  | hash entries => hash (comparedEntries entries)
  | function identity _ => function identity {}
  | closure identity _ _ => closure identity {} []
  | v => v

/-- What is compared of the items of an array. -/
def comparedItems : List Value → List Value
  | [] => []
  | v :: rest => compared v :: comparedItems rest

/-- What is compared of the entries of a hash. -/
def comparedEntries {bound : Option HashKey} : HashEntries Value bound → HashEntries Value bound
  | .nil => .nil
  | .cons key v after rest => .cons key (compared v) after (comparedEntries rest)

end

mutual

/-- Values without floats are equal if all that is compared of them is the same. -/
theorem equal_iff_compared : ∀ {v w : Value}, v.isFloatFree = true → w.isFloatFree = true →
    (v.equal w = true ↔ v.compared = w.compared)
  | null, w, _, _ | boolean _, w, _, _ | string _, w, _, _ | builtin _, w, _, _
  | function _ _, w, _, _ | closure _ _ _, w, _, _ => by cases w <;> simp [equal, compared]
  | integer a, w, _, hw => by cases w <;> simp_all [equal, compared, isFloatFree]
  | float _, _, hv, _ => by simp [isFloatFree] at hv
  | array as, w, hv, hw => by
    cases w with
    | array bs =>
      rw [isFloatFree] at hv hw
      rw [equal, compared, compared, array.injEq]
      exact equalItems_iff_compared hv hw
    | _ => simp [equal, compared]
  | hash as, w, hv, hw => by
    cases w with
    | hash bs =>
      rw [isFloatFree] at hv hw
      rw [equal, compared, compared, hash.injEq]
      exact equalEntries_iff_compared hv hw
    | _ => simp [equal, compared]

theorem equalItems_iff_compared : ∀ {as bs : List Value}, areFloatFree as = true →
    areFloatFree bs = true → (equalItems as bs = true ↔ comparedItems as = comparedItems bs)
  | [], bs, _, _ => by cases bs <;> simp [equalItems, comparedItems]
  | a :: as, [], _, _ => by simp [equalItems, comparedItems]
  | a :: as, b :: bs, has, hbs => by
    rw [areFloatFree, Bool.and_eq_true] at has hbs
    rw [equalItems, Bool.and_eq_true, comparedItems, comparedItems, List.cons.injEq,
      equal_iff_compared has.1 hbs.1, equalItems_iff_compared has.2 hbs.2]

theorem equalEntries_iff_compared : ∀ {bound : Option HashKey} {as bs : HashEntries Value bound},
    haveFloatFree as = true → haveFloatFree bs = true →
    (equalEntries as bs = true ↔ comparedEntries as = comparedEntries bs)
  | _, .nil, bs, _, _ => by cases bs <;> simp [equalEntries, comparedEntries]
  | _, .cons .., .nil, _, _ => by simp [equalEntries, comparedEntries]
  | _, .cons k a _ as, .cons l b _ bs, has, hbs => by
    rw [haveFloatFree, Bool.and_eq_true] at has hbs
    rw [equalEntries, Bool.and_eq_true, Bool.and_eq_true, decide_eq_true_iff, comparedEntries,
      comparedEntries, HashEntries.cons.injEq, equal_iff_compared has.1 hbs.1, and_assoc]
    -- the types of the further entries agree only once the keys do
    refine and_congr_right fun hkey => ?_
    subst hkey
    rw [equalEntries_iff_compared has.2 hbs.2, heq_iff_eq]

end

/-! ### Equal hashes -/

theorem isSome_eq_of_rel {R : Value → Value → Prop} {a b : Option Value} (h : Option.Rel R a b) :
    a.isSome = b.isSome := by
  cases h <;> rfl

/-- Hashes are equal if they have equally many entries and each entry of one has an equal one in the
other. -/
theorem equal_hash_iff (as bs : HashEntries Value none) :
    (hash as).equal (hash bs) = true ↔ as.length = bs.length ∧
      ∀ key v, (key, v) ∈ as.toList → ∃ w, (key, w) ∈ bs.toList ∧ v.equal w = true := by
  rw [equal, equalEntries_iff, ← as.length_toList, ← bs.length_toList]
  constructor
  · intro hrel
    have hkeys : ∀ key, key ∈ as.toList.map Prod.fst ↔ key ∈ bs.toList.map Prod.fst := by
      intro key
      rw [HashEntries.mem_keys_iff, HashEntries.mem_keys_iff, isSome_eq_of_rel (hrel key)]
    have hperm := (List.perm_ext_iff_of_nodup as.nodup_keys bs.nodup_keys).mpr hkeys
    refine ⟨by simpa using hperm.length_eq, fun key v hv => ?_⟩
    have hkey := hrel key
    rw [HashEntries.find?_eq_some_iff.mpr hv] at hkey
    cases hfind : HashEntries.find? key bs with
    | none =>
      rw [hfind] at hkey
      cases hkey
    | some w =>
      rw [hfind] at hkey
      cases hkey with
      | some hvw => exact ⟨w, HashEntries.mem_of_find? hfind, hvw⟩
  · rintro ⟨hlength, hfound⟩ key
    -- the keys of one hash are keys of the other, and being equally many they are all of them
    have hsubset : as.toList.map Prod.fst ⊆ bs.toList.map Prod.fst := by
      intro key hkey
      obtain ⟨⟨_, v⟩, hv, rfl⟩ := List.mem_map.mp hkey
      obtain ⟨w, hw, -⟩ := hfound _ v hv
      exact List.mem_map.mpr ⟨_, hw, rfl⟩
    have hperm : (as.toList.map Prod.fst).Perm (bs.toList.map Prod.fst) :=
      (List.Nodup.subperm as.nodup_keys hsubset).perm_of_length_le (by simp [hlength])
    cases hfind : HashEntries.find? key as with
    | some v =>
      obtain ⟨w, hw, hvw⟩ := hfound key v (HashEntries.mem_of_find? hfind)
      rw [HashEntries.find?_eq_some_iff.mpr hw]
      exact .some hvw
    | none =>
      have hnot : key ∉ bs.toList.map Prod.fst := by
        rw [← hperm.mem_iff, HashEntries.mem_keys_iff, hfind]
        simp
      rw [HashEntries.mem_keys_iff, Option.not_isSome_iff_eq_none] at hnot
      rw [hnot]
      exact .none

/-! ### Equal values as keys -/

theorem toKey?_compared (v : Value) : v.compared.toKey? = v.toKey? := by
  cases v <;> rfl

theorem toKey_compared (v : Value) : v.compared.toKey = v.toKey := by
  cases v <;> rfl

theorem index_compared (container v : Value) : index container v.compared = index container v := by
  cases container <;> cases v <;> rfl

theorem keyedPairs_congr {v w : Value} (h : v.toKey = w.toKey) (x : Value)
    (front back : List (Value × Value)) :
    keyedPairs (front ++ (v, x) :: back) = keyedPairs (front ++ (w, x) :: back) := by
  induction front with
  | nil => rw [List.nil_append, List.nil_append, keyedPairs, keyedPairs, h]
  | cons pair rest ih => rw [List.cons_append, List.cons_append, keyedPairs, keyedPairs, ih]

/-- The operator `==` gives true. -/
def TestsEqual (console : Console) (v w : Value) : Prop :=
  (nativeHost.binary .equal v w).run.run console = (.ok (.boolean true), console)

/-- The values can stand for each other as keys, where a hash is looked into and where it is
made. -/
structure SameAsKeys (v w : Value) : Prop where
  key : v.toKey? = w.toKey?
  index (container : Value) : nativeHost.index container v = nativeHost.index container w
  hash (front back : List (Value × Value)) (x : Value) :
    nativeHost.hash (front ++ (v, x) :: back) = nativeHost.hash (front ++ (w, x) :: back)

theorem testsEqual_iff {console : Console} {v w : Value} :
    TestsEqual console v w ↔ v.equal w = true := by
  have hrun : (nativeHost.binary .equal v w).run.run console =
      (.ok (.boolean (v.equal w)), console) :=
    Host.run_pureResult (binary .equal v w) console
  rw [TestsEqual, hrun]
  constructor
  · intro h
    simpa using congrArg Prod.fst h
  · intro h
    rw [h]

theorem sameAsKeys_of_compared {v w : Value} (h : v.compared = w.compared) : SameAsKeys v w where
  key := by rw [← toKey?_compared v, h, toKey?_compared]
  index container := by
    refine congrArg Host.pureResult ?_
    rw [← index_compared container v, h, index_compared]
  hash front back x := by
    have hkey : v.toKey = w.toKey := by rw [← toKey_compared v, h, toKey_compared]
    refine congrArg Host.pureResult ?_
    rw [hashOfPairs, keyedPairs_congr hkey, ← hashOfPairs]

end Value

open Value in
/-- On values without floats `==` is an equivalence, and equal values can stand for each other as
keys. The operator `!=` is the negation of `==` and hashes are compared as maps, on all values. -/
theorem equal_equivalence (console : Console) :
    Equivalence (fun v w : { v : Value // v.isFloatFree = true } => TestsEqual console v w) ∧
    (∀ v w : Value, v.isFloatFree = true → w.isFloatFree = true → TestsEqual console v w →
      SameAsKeys v w) ∧
    (∀ v w : Value, ∃ b,
      (nativeHost.binary .equal v w).run.run console = (.ok (.boolean b), console) ∧
      (nativeHost.binary .notEqual v w).run.run console = (.ok (.boolean !b), console)) ∧
    ∀ as bs, TestsEqual console (.hash as) (.hash bs) ↔ as.length = bs.length ∧
      ∀ key v, (key, v) ∈ as.toList → ∃ w, (key, w) ∈ bs.toList ∧ TestsEqual console v w := by
  simp only [testsEqual_iff]
  refine ⟨⟨fun v => ?_, fun {v w} h => ?_, fun {u v w} huv hvw => ?_⟩, fun v w hv hw h => ?_,
    fun v w => ?_, equal_hash_iff⟩
  · exact (equal_iff_compared v.2 v.2).mpr rfl
  · rw [equal_iff_compared v.2 w.2] at h
    rw [equal_iff_compared w.2 v.2, h]
  · rw [equal_iff_compared u.2 v.2] at huv
    rw [equal_iff_compared v.2 w.2] at hvw
    rw [equal_iff_compared u.2 w.2, huv, hvw]
  · exact sameAsKeys_of_compared ((equal_iff_compared hv hw).mp h)
  · exact ⟨v.equal w, Host.run_pureResult (binary .equal v w) console,
      Host.run_pureResult (binary .notEqual v w) console⟩

-- with floats it is no equivalence: both integers convert to the same float
example :
    (Value.integer 9007199254740993).equal (.float (.ofInt 9007199254740992)) = true ∧
    (Value.float (.ofInt 9007199254740992)).equal (.integer 9007199254740992) = true ∧
    (Value.integer 9007199254740993).equal (.integer 9007199254740992) = false := by
  decide +kernel

end Bytescript
