/-
Values that differ only in the numbers of their closures.

`Value.Alike R` compares two values; `R` says which numbers stand for the same closure and which
code closures may have. No operation of the language tells such values apart, as long as two numbers
are equal on one side exactly if they are on the other (`IsMatching`): operations on alike values
succeed together and give alike values (`follows_binary`, `follows_unary`, `follows_index`,
`follows_hashOfPairs`, `Builtin.follows_evaluate`), and alike values are printed in the same way.

Design notes: function constants are alike to nothing. They never leave the pool, so the values
that a machine computes with hold none.
-/
import Bytescript.Proofs.Surface
import Mathlib.Data.List.Forall2

namespace Bytescript

namespace Value

mutual

/-- Values that differ only in the numbers of their closures, which `R` compares. -/
inductive Alike (R : Nat → Nat → FunctionCode → Prop) : Value → Value → Prop where
  | null : Alike R null null
  | boolean (b : Bool) : Alike R (boolean b) (boolean b)
  | integer (n : Int64) : Alike R (integer n) (integer n)
  | float (x : Binary64) : Alike R (float x) (float x)
  | string (s : String) : Alike R (string s) (string s)
  | builtin (b : Builtin) : Alike R (builtin b) (builtin b)
  | array {items items' : List Value} : AlikeItems R items items' →
      Alike R (array items) (array items')
  | hash {entries entries' : HashEntries Value none} : AlikeEntries R entries entries' →
      Alike R (hash entries) (hash entries')
  | closure {i j : Nat} {code : FunctionCode} {free free' : List Value} : R i j code →
      AlikeItems R free free' → Alike R (closure i code free) (closure j code free')

/-- Items that are alike, one by one. -/
inductive AlikeItems (R : Nat → Nat → FunctionCode → Prop) : List Value → List Value → Prop where
  | nil : AlikeItems R [] []
  | cons {v w : Value} {vs ws : List Value} : Alike R v w → AlikeItems R vs ws →
      AlikeItems R (v :: vs) (w :: ws)

/-- Entries with the same keys and values that are alike. -/
inductive AlikeEntries (R : Nat → Nat → FunctionCode → Prop) : {bound : Option HashKey} →
    HashEntries Value bound → HashEntries Value bound → Prop where
  | nil {bound : Option HashKey} : AlikeEntries R (.nil : HashEntries Value bound) .nil
  | cons {bound : Option HashKey} {key : HashKey} {after : key.isAfter bound = true} {v w : Value}
      {vs ws : HashEntries Value (some key)} : Alike R v w → AlikeEntries R vs ws →
      AlikeEntries R (.cons key v after vs) (.cons key w after ws)

end

variable {R R' : Nat → Nat → FunctionCode → Prop}

theorem alikeItems_iff {vs ws : List Value} :
    AlikeItems R vs ws ↔ List.Forall₂ (Alike R) vs ws := by
  constructor
  · intro h
    induction vs generalizing ws with
    | nil =>
      cases h
      exact .nil
    | cons v vs ih =>
      cases h with
      | cons hv hvs => exact .cons hv (ih hvs)
  · intro h
    induction h with
    | nil => exact .nil
    | cons hv _ ih => exact .cons hv ih

theorem alike_closure_iff {i j : Nat} {code code' : FunctionCode} {free free' : List Value} :
    Alike R (closure i code free) (closure j code' free') ↔
      R i j code ∧ code' = code ∧ List.Forall₂ (Alike R) free free' := by
  constructor
  · intro h
    cases h with
    | closure hij hfree => exact ⟨hij, rfl, alikeItems_iff.mp hfree⟩
  · rintro ⟨hij, rfl, hfree⟩
    exact .closure hij (alikeItems_iff.mpr hfree)

/-- Alike entries are entries with pairs of alike values, looked at from two sides. -/
theorem alikeEntries_iff {bound : Option HashKey} {es es' : HashEntries Value bound} :
    AlikeEntries R es es' ↔
      ∃ pairs : HashEntries { p : Value × Value // Alike R p.1 p.2 } bound,
        es = pairs.map (fun p => p.1.1) ∧ es' = pairs.map fun p => p.1.2 := by
  constructor
  · intro h
    induction es with
    | nil =>
      cases h
      exact ⟨.nil, rfl, rfl⟩
    | cons key v after es ih =>
      cases h with
      | @cons _ _ _ _ w _ _ hv hes =>
        obtain ⟨pairs, rfl, rfl⟩ := ih hes
        exact ⟨.cons key ⟨(v, w), hv⟩ after pairs, rfl, rfl⟩
  · rintro ⟨pairs, rfl, rfl⟩
    induction pairs with
    | nil => exact .nil
    | cons key pair _ pairs ih => exact .cons pair.2 ih

mutual

theorem Alike.mono (h : ∀ i j code, R i j code → R' i j code) :
    ∀ {v w : Value}, Alike R v w → Alike R' v w
  | _, _, .null => .null
  | _, _, .boolean b => .boolean b
  | _, _, .integer n => .integer n
  | _, _, .float x => .float x
  | _, _, .string s => .string s
  | _, _, .builtin b => .builtin b
  | _, _, .array hitems => .array (AlikeItems.mono h hitems)
  | _, _, .hash hentries => .hash (AlikeEntries.mono h hentries)
  | _, _, .closure hR hfree => .closure (h _ _ _ hR) (AlikeItems.mono h hfree)

theorem AlikeItems.mono (h : ∀ i j code, R i j code → R' i j code) :
    ∀ {vs ws : List Value}, AlikeItems R vs ws → AlikeItems R' vs ws
  | _, _, .nil => .nil
  | _, _, .cons hv hvs => .cons (Alike.mono h hv) (AlikeItems.mono h hvs)

theorem AlikeEntries.mono (h : ∀ i j code, R i j code → R' i j code) :
    ∀ {bound : Option HashKey} {es es' : HashEntries Value bound},
      AlikeEntries R es es' → AlikeEntries R' es es'
  | _, _, _, .nil => .nil
  | _, _, _, .cons hv hes => .cons (Alike.mono h hv) (AlikeEntries.mono h hes)

end

/-! ### What is read off a single value -/

namespace Alike

variable {v w : Value}

theorem isTruthy (h : Alike R v w) : w.isTruthy = v.isTruthy := by
  cases h <;> rfl

theorem toKey (h : Alike R v w) : w.toKey = v.toKey := by
  cases h <;> rfl

end Alike

mutual

/-- Alike values are printed in the same way. -/
theorem Alike.renderWith (quoted : Bool) :
    ∀ {v w : Value}, Alike R v w → w.renderWith quoted = v.renderWith quoted
  | _, _, .array hitems => by rw [Value.renderWith, Value.renderWith, AlikeItems.render hitems]
  | _, _, .hash hentries => by rw [Value.renderWith, Value.renderWith, AlikeEntries.render hentries]
  | _, _, .closure _ _ => rfl
  | _, _, .null | _, _, .boolean _ | _, _, .integer _ | _, _, .float _ | _, _, .string _
  | _, _, .builtin _ => rfl

theorem AlikeItems.render : ∀ {vs ws : List Value}, AlikeItems R vs ws →
    renderItems ws = renderItems vs
  | _, _, .nil => rfl
  | _, _, .cons hv hvs => by
    rw [renderItems, renderItems, Alike.renderWith true hv, AlikeItems.render hvs]

theorem AlikeEntries.render : ∀ {bound : Option HashKey} {es es' : HashEntries Value bound},
    AlikeEntries R es es' → renderEntries es' = renderEntries es
  | _, _, _, .nil => rfl
  | _, _, _, .cons hv hes => by
    rw [renderEntries, renderEntries, Alike.renderWith true hv, AlikeEntries.render hes]

end

/-! ### Operators -/

/-- Two numbers are equal on one side exactly if they are on the other. -/
def IsMatching (R : Nat → Nat → FunctionCode → Prop) : Prop :=
  ∀ ⦃i j i' j' code code'⦄, R i j code → R i' j' code' → (i = i' ↔ j = j')

mutual

/-- Equality compares closures by number. -/
theorem Alike.equal (hR : IsMatching R) : ∀ {v w v' w' : Value}, Alike R v w → Alike R v' w' →
    w.equal w' = v.equal v'
  | _, _, _, _, .array hitems, h' => by
    cases h' with
    | array hitems' => exact AlikeItems.equal hR hitems hitems'
    | null | boolean | integer | float | string | builtin | hash | closure => rfl
  | _, _, _, _, .hash hentries, h' => by
    cases h' with
    | hash hentries' => exact AlikeEntries.equal hR hentries hentries'
    | null | boolean | integer | float | string | builtin | array | closure => rfl
  | _, _, _, _, .closure hij _, h' => by
    cases h' with
    | closure hij' _ =>
      rw [Value.equal, Value.equal, Bool.eq_iff_iff, beq_iff_eq, beq_iff_eq]
      exact (hR hij hij').symm
    | null | boolean | integer | float | string | builtin | array | hash => rfl
  | _, _, _, _, .null, h' | _, _, _, _, .boolean _, h' | _, _, _, _, .integer _, h'
  | _, _, _, _, .float _, h' | _, _, _, _, .string _, h' | _, _, _, _, .builtin _, h' => by
    cases h' <;> rfl

theorem AlikeItems.equal (hR : IsMatching R) : ∀ {vs ws vs' ws' : List Value},
    AlikeItems R vs ws → AlikeItems R vs' ws' → equalItems ws ws' = equalItems vs vs'
  | _, _, _, _, .nil, h' => by cases h' <;> rfl
  | _, _, _, _, .cons hv hvs, h' => by
    cases h' with
    | nil => rfl
    | cons hv' hvs' =>
      rw [equalItems, equalItems, Alike.equal hR hv hv', AlikeItems.equal hR hvs hvs']

theorem AlikeEntries.equal (hR : IsMatching R) : ∀ {bound bound' : Option HashKey}
    {es fs : HashEntries Value bound} {es' fs' : HashEntries Value bound'},
    AlikeEntries R es fs → AlikeEntries R es' fs' → equalEntries fs fs' = equalEntries es es'
  | _, _, _, _, _, _, .nil, h' => by cases h' <;> rfl
  | _, _, _, _, _, _, .cons hv hes, h' => by
    cases h' with
    | nil => rfl
    | cons hv' hes' =>
      rw [equalEntries, equalEntries, Alike.equal hR hv hv', AlikeEntries.equal hR hes hes']

end

/-- If the first operation succeeds then so does the second one, with an alike value. -/
def Follows (R : Nat → Nat → FunctionCode → Prop) (first second : Except Fault Value) : Prop :=
  ∀ v, first = .ok v → ∃ w, second = .ok w ∧ Alike R v w

theorem Follows.ok {v w : Value} (h : Alike R v w) : Follows R (.ok v) (.ok w) := by
  intro v' hv
  cases hv
  exact ⟨w, rfl, h⟩

theorem Follows.error (fault : Fault) (second : Except Fault Value) :
    Follows R (.error fault) second := by
  intro v hv
  cases hv

theorem follows_integerOperation (op : Opcode) (a b : Int64) :
    Follows R (integerOperation op a b) (integerOperation op a b) := by
  unfold integerOperation
  split
  case h_1 | h_2 | h_3 => exact .ok (.integer _)
  case h_4 | h_5 =>
    split
    · exact .error _ _
    · exact .ok (.integer _)
  case h_6 | h_7 => exact .ok (.boolean _)
  case h_8 => exact .error _ _

theorem follows_floatOperation (op : Opcode) (a b : Binary64) :
    Follows R (floatOperation op a b) (floatOperation op a b) := by
  unfold floatOperation
  split
  case h_1 | h_2 | h_3 | h_4 | h_5 => exact .ok (.float _)
  case h_6 | h_7 => exact .ok (.boolean _)
  case h_8 => exact .error _ _

theorem follows_stringOperation (op : Opcode) (a b : String) :
    Follows R (stringOperation op a b) (stringOperation op a b) := by
  unfold stringOperation
  split
  case h_1 => exact .ok (.string _)
  case h_2 | h_3 => exact .ok (.boolean _)
  case h_4 => exact .error _ _

section

variable {a a' b b' : Value}

theorem follows_binary (hR : IsMatching R) (op : Opcode) (ha : Alike R a a') (hb : Alike R b b') :
    Follows R (Value.binary op a b) (Value.binary op a' b') := by
  -- equality takes all values, every other operator looks at the types of its operands first
  by_cases hop : op = .equal ∨ op = .notEqual
  · rcases hop with rfl | rfl
    · rw [Value.binary, Value.binary, ha.equal hR hb]
      exact .ok (.boolean _)
    · rw [Value.binary, Value.binary, ha.equal hR hb]
      exact .ok (.boolean _)
  · obtain ⟨hequal, hnotEqual⟩ := not_or.mp hop
    rw [binary_of_ne_equal hequal hnotEqual, binary_of_ne_equal hequal hnotEqual]
    cases ha with
    | integer =>
      cases hb with
      | integer => exact follows_integerOperation op _ _
      | float => exact follows_floatOperation op _ _
      | null | boolean | string | builtin | array | hash | closure => exact .error _ _
    | float =>
      cases hb with
      | integer | float => exact follows_floatOperation op _ _
      | null | boolean | string | builtin | array | hash | closure => exact .error _ _
    | string =>
      cases hb with
      | string => exact follows_stringOperation op _ _
      | null | boolean | integer | float | builtin | array | hash | closure => exact .error _ _
    | null | boolean | builtin | array | hash | closure => cases hb <;> exact .error _ _

theorem follows_unary (op : Opcode) (ha : Alike R a a') :
    Follows R (Value.unary op a) (Value.unary op a') := by
  by_cases hop : op = .bang
  · subst hop
    rw [Value.unary, Value.unary, ha.isTruthy]
    exact .ok (.boolean _)
  · unfold Value.unary
    split
    · exact absurd rfl hop
    · cases ha
      exact .ok (.integer _)
    · cases ha
      exact .ok (.float _)
    · exact .error _ _

/-! ### Collections -/

theorem alike_itemAt {items items' : List Value} (h : List.Forall₂ (Alike R) items items')
    (i : Int64) : Alike R (itemAt items i) (itemAt items' i) := by
  unfold itemAt
  split
  · exact .null
  · rw [List.getD_eq_getElem?_getD, List.getD_eq_getElem?_getD]
    generalize i.toNatClampNeg = n
    induction h generalizing n with
    | nil => exact .null
    | cons hv _ ih =>
      cases n with
      | zero => exact hv
      | succ n => exact ih n

theorem alike_find? {entries entries' : HashEntries Value none}
    (h : AlikeEntries R entries entries') (key : HashKey) :
    Alike R ((HashEntries.find? key entries).getD .null)
      ((HashEntries.find? key entries').getD .null) := by
  obtain ⟨pairs, rfl, rfl⟩ := alikeEntries_iff.mp h
  rw [HashEntries.find?_map, HashEntries.find?_map]
  cases HashEntries.find? key pairs with
  | none => exact .null
  | some p => exact p.2

theorem follows_index (ha : Alike R a a') (hb : Alike R b b') :
    Follows R (Value.index a b) (Value.index a' b') := by
  cases ha with
  | array hitems =>
    cases hb with
    | integer n => exact .ok (alike_itemAt (alikeItems_iff.mp hitems) n)
    | null | boolean | float | string | builtin | array | hash | closure => exact .error _ _
  | hash hentries =>
    rw [Value.index, Value.index, hb.toKey]
    cases b.toKey with
    | error fault => exact .error _ _
    | ok key => exact .ok (alike_find? hentries key)
  | null | boolean | integer | float | string | builtin | closure => cases hb <;> exact .error _ _

end

/-- Pairs with the same keys and alike values are one list of pairs, looked at from two sides. -/
theorem exists_both {pairs pairs' : List (HashKey × Value)}
    (h : List.Forall₂ (fun p p' => p.1 = p'.1 ∧ Alike R p.2 p'.2) pairs pairs') :
    ∃ both : List (HashKey × { p : Value × Value // Alike R p.1 p.2 }),
      pairs = both.map (Prod.map id fun p => p.1.1) ∧
      pairs' = both.map (Prod.map id fun p => p.1.2) := by
  induction h with
  | nil => exact ⟨[], rfl, rfl⟩
  | @cons p p' rest rest' hp _ ih =>
    obtain ⟨key, v⟩ := p
    obtain ⟨key', w⟩ := p'
    obtain ⟨rfl, hv⟩ := hp
    obtain ⟨both, rfl, rfl⟩ := ih
    exact ⟨(key, ⟨(v, w), hv⟩) :: both, rfl, rfl⟩

theorem alike_ofPairs {pairs pairs' : List (HashKey × Value)}
    (h : List.Forall₂ (fun p p' => p.1 = p'.1 ∧ Alike R p.2 p'.2) pairs pairs') :
    AlikeEntries R (HashEntries.ofPairs pairs) (HashEntries.ofPairs pairs') := by
  obtain ⟨both, rfl, rfl⟩ := exists_both h
  rw [HashEntries.ofPairs_map, HashEntries.ofPairs_map]
  exact alikeEntries_iff.mpr ⟨_, rfl, rfl⟩

theorem alike_keyedPairs {pairs pairs' : List (Value × Value)}
    (h : List.Forall₂ (fun p p' => Alike R p.1 p'.1 ∧ Alike R p.2 p'.2) pairs pairs')
    {keyed : List (HashKey × Value)} (hkeyed : keyedPairs pairs = .ok keyed) :
    ∃ keyed', keyedPairs pairs' = .ok keyed' ∧
      List.Forall₂ (fun p p' => p.1 = p'.1 ∧ Alike R p.2 p'.2) keyed keyed' := by
  induction h generalizing keyed with
  | nil =>
    cases hkeyed
    exact ⟨[], rfl, .nil⟩
  | @cons p p' rest rest' hp _ ih =>
    obtain ⟨k, v⟩ := p
    obtain ⟨k', v'⟩ := p'
    rw [keyedPairs] at hkeyed ⊢
    -- both keys are the same key, or give the same fault
    rw [hp.1.toKey]
    cases hkey : k.toKey with
    | error fault =>
      rw [hkey] at hkeyed
      cases hkeyed
    | ok key =>
      cases hrest : keyedPairs rest with
      | error fault =>
        rw [hkey, hrest] at hkeyed
        cases hkeyed
      | ok others =>
        rw [hkey, hrest] at hkeyed
        cases hkeyed
        obtain ⟨others', hrest', hothers⟩ := ih hrest
        rw [hrest']
        exact ⟨_, rfl, .cons ⟨rfl, hp.2⟩ hothers⟩

theorem follows_hashOfPairs {pairs pairs' : List (Value × Value)}
    (h : List.Forall₂ (fun p p' => Alike R p.1 p'.1 ∧ Alike R p.2 p'.2) pairs pairs') :
    Follows R (hashOfPairs pairs) (hashOfPairs pairs') := by
  rw [hashOfPairs, hashOfPairs]
  cases hkeyed : keyedPairs pairs with
  | error fault => exact .error _ _
  | ok keyed =>
    obtain ⟨keyed', hkeyed', hentries⟩ := alike_keyedPairs h hkeyed
    rw [hkeyed']
    exact .ok (.hash (alike_ofPairs hentries))

end Value

/-! ### Built-in functions -/

namespace Builtin

open Value

variable {R : Nat → Nat → FunctionCode → Prop}

theorem follows_length {v w : Value} (h : Alike R v w) : Follows R (length v) (length w) := by
  cases h with
  | string s => exact .ok (.integer _)
  | array hitems =>
    rw [length, length, (alikeItems_iff.mp hitems).length_eq]
    exact .ok (.integer _)
  | hash hentries =>
    obtain ⟨pairs, rfl, rfl⟩ := alikeEntries_iff.mp hentries
    rw [length, length, HashEntries.length_map, HashEntries.length_map]
    exact .ok (.integer _)
  | null | boolean | integer | float | builtin | closure => exact .error _ _

/-- What is done with the items of an array argument. -/
theorem follows_arrayArgument_bind (b : Builtin) {v w : Value} (h : Alike R v w)
    {f g : List Value → Except Fault Value}
    (hfg : ∀ items items', List.Forall₂ (Alike R) items items' → Follows R (f items) (g items')) :
    Follows R (b.arrayArgument v >>= f) (b.arrayArgument w >>= g) := by
  cases h with
  | array hitems => exact hfg _ _ (alikeItems_iff.mp hitems)
  | null | boolean | integer | float | string | builtin | hash | closure => exact .error _ _

theorem follows_evaluate (b : Builtin) {args args' : List Value}
    (h : List.Forall₂ (Alike R) args args') : Follows R (b.evaluate args) (b.evaluate args') := by
  unfold evaluate
  -- `puts`, `len`, `first`, `last`, `rest` and `push`, then wrong numbers of arguments
  split
  · exact .ok .null
  · obtain ⟨w, _, hv, hnil, rfl⟩ := List.forall₂_cons_left_iff.mp h
    cases hnil
    exact follows_length hv
  · obtain ⟨w, _, hv, hnil, rfl⟩ := List.forall₂_cons_left_iff.mp h
    cases hnil
    refine follows_arrayArgument_bind _ hv fun items items' hitems => ?_
    cases hitems with
    | nil => exact .ok .null
    | cons hitem _ => exact .ok hitem
  · obtain ⟨w, _, hv, hnil, rfl⟩ := List.forall₂_cons_left_iff.mp h
    cases hnil
    refine follows_arrayArgument_bind _ hv fun items items' hitems => ?_
    refine .ok (v := items.getLastD .null) (w := items'.getLastD .null) ?_
    -- the last item is the first one from behind
    rw [List.getLastD_eq_getLast?, List.getLastD_eq_getLast?, ← List.head?_reverse,
      ← List.head?_reverse]
    have hreverse := List.forall₂_reverse_iff.mpr hitems
    generalize items.reverse = back at hreverse
    generalize items'.reverse = back' at hreverse
    cases hreverse with
    | nil => exact .null
    | cons hitem _ => exact hitem
  · obtain ⟨w, _, hv, hnil, rfl⟩ := List.forall₂_cons_left_iff.mp h
    cases hnil
    refine follows_arrayArgument_bind _ hv fun items items' hitems => ?_
    cases hitems with
    | nil => exact .ok .null
    | cons _ hitems => exact .ok (.array (alikeItems_iff.mpr hitems))
  · obtain ⟨w, _, hv, htail, rfl⟩ := List.forall₂_cons_left_iff.mp h
    obtain ⟨item', _, hitem, hnil, rfl⟩ := List.forall₂_cons_left_iff.mp htail
    cases hnil
    refine follows_arrayArgument_bind _ hv fun items items' hitems => ?_
    exact .ok (.array (alikeItems_iff.mpr (List.rel_append hitems (.cons hitem .nil))))
  · exact .error _ _
  · exact .error _ _

theorem printed_alike (b : Builtin) {args args' : List Value}
    (h : List.Forall₂ (Alike R) args args') : b.printed args' = b.printed args := by
  cases b with
  | puts =>
    have hmap : args'.map (fun v => v.display ++ "\n") = args.map fun v => v.display ++ "\n" := by
      induction h with
      | nil => rfl
      | cons hv _ ih =>
        rw [List.map_cons, List.map_cons, ih, display, display, hv.renderWith false]
    rw [printed, printed, hmap]
  | len | first | last | rest | push => rfl

end Builtin

end Bytescript
