/-
What can be seen of a value.

`Value.surface` takes the code and the captured values out of functions and closures; their
number, name and number of parameters stay. No operation of the language looks deeper: every
operation on surfaces gives the surface of what it gives on the values themselves
(`binary_surface`, `unary_surface`, `index_surface`, `hashOfPairs_surface`,
`Builtin.evaluate_surface`), and values print like their surfaces (`renderWith_surface`).
-/
import Bytescript.Machine.Native

namespace Bytescript

/-! ### Entries of hashes -/

namespace HashEntries

variable {α β : Type} {bound : Option HashKey}

/-- The entries with their values changed. -/
def map (f : α → β) {bound : Option HashKey} : HashEntries α bound → HashEntries β bound
  | nil => nil
  | cons key v after rest => cons key (f v) after (rest.map f)

theorem length_map (f : α → β) (entries : HashEntries α bound) :
    (entries.map f).length = entries.length := by
  induction entries with
  | nil => rfl
  | cons key v _ rest ih => rw [map, length, ih, length]

theorem find?_map (f : α → β) (key : HashKey) (entries : HashEntries α bound) :
    find? key (entries.map f) = (find? key entries).map f := by
  induction entries with
  | nil => rfl
  | cons other v _ rest ih =>
    by_cases h : key = other
    · simp [map, find?, h]
    · simp [map, find?, h, ih]

theorem insertNew_map (f : α → β) (key : HashKey) (v : α) (after : key.isAfter bound = true)
    (entries : HashEntries α bound) :
    insertNew key (f v) after (entries.map f) = (insertNew key v after entries).map f := by
  induction entries with
  | nil => rfl
  | cons other w otherAfter rest ih =>
    simp only [map, insertNew]
    split
    · rfl
    · split
      · rfl
      · rw [ih, map]

/-- Where an entry comes to stand depends on its key only. -/
theorem ofPairs_map (f : α → β) (pairs : List (HashKey × α)) :
    ofPairs (pairs.map (Prod.map id f)) = (ofPairs pairs).map f := by
  have hsort := List.map_mergeSort (l := pairs) (f := Prod.map id f)
    (r := fun a b => !b.1.before a.1) (s := fun a b => !b.1.before a.1) (fun _ _ _ _ => rfl)
  rw [ofPairs, ofPairs, ← hsort]
  -- sorting leaves the entries in the same order, so only the insertions are left
  induction pairs.mergeSort fun a b => !b.1.before a.1 with
  | nil => rfl
  | cons entry rest ih =>
    simp only [List.map_cons, List.foldr_cons, ih]
    exact insertNew_map f entry.1 entry.2 _ _

end HashEntries

/-! ### Surfaces -/

/-- A function without its code. -/
def FunctionCode.outline (f : FunctionCode) : FunctionCode :=
  { params := f.params, name? := f.name? }

namespace Value

mutual

/-- A value with the code and the captured values of its functions taken out. -/
def surface : Value → Value
  | array items => array (surfaceItems items)
  | hash entries => hash (surfaceEntries entries)
  | function identity code => function identity code.outline
  | closure identity code _ => closure identity code.outline []
  | null => null
  | boolean b => boolean b
  | integer n => integer n
  | float x => float x
  | string s => string s
  | builtin b => builtin b

/-- The surfaces of the items of an array. -/
def surfaceItems : List Value → List Value
  | [] => []
  | v :: rest => surface v :: surfaceItems rest

/-- The entries of a hash with the surfaces of their values. -/
def surfaceEntries {bound : Option HashKey} : HashEntries Value bound → HashEntries Value bound
  | .nil => .nil
  | .cons key v after rest => .cons key (surface v) after (surfaceEntries rest)

end

theorem surfaceItems_eq_map (items : List Value) : surfaceItems items = items.map surface := by
  induction items with
  | nil => rfl
  | cons v rest ih => rw [surfaceItems, ih, List.map_cons]

theorem surfaceEntries_eq_map {bound : Option HashKey} (entries : HashEntries Value bound) :
    surfaceEntries entries = entries.map surface := by
  induction entries with
  | nil => rfl
  | cons key v _ rest ih => rw [surfaceEntries, ih, HashEntries.map]

@[simp]
theorem surface_array (items : List Value) : (array items).surface = array (items.map surface) := by
  rw [surface, surfaceItems_eq_map]

@[simp]
theorem surface_hash (entries : HashEntries Value none) :
    (hash entries).surface = hash (entries.map surface) := by
  rw [surface, surfaceEntries_eq_map]

@[simp] theorem surface_null : null.surface = null := rfl
@[simp] theorem surface_boolean (b : Bool) : (boolean b).surface = boolean b := rfl
@[simp] theorem surface_integer (n : Int64) : (integer n).surface = integer n := rfl
@[simp] theorem surface_float (x : Binary64) : (float x).surface = float x := rfl
@[simp] theorem surface_string (s : String) : (string s).surface = string s := rfl
@[simp] theorem surface_builtin (b : Builtin) : (builtin b).surface = builtin b := rfl

@[simp]
theorem surface_function (identity : Nat) (code : FunctionCode) :
    (function identity code).surface = function identity code.outline := rfl

@[simp]
theorem surface_closure (identity : Nat) (code : FunctionCode) (free : List Value) :
    (closure identity code free).surface = closure identity code.outline [] := rfl

/-! ### What is read off a single value -/

@[simp]
theorem typeName_surface (v : Value) : v.surface.typeName = v.typeName := by
  cases v <;> rfl

@[simp]
theorem isTruthy_surface (v : Value) : v.surface.isTruthy = v.isTruthy := by
  cases v <;> rfl

@[simp]
theorem toKey_surface (v : Value) : v.surface.toKey = v.toKey := by
  cases v <;> rfl

mutual

/-- A value is printed like its surface. -/
theorem renderWith_surface (quoted : Bool) :
    ∀ v : Value, v.surface.renderWith quoted = v.renderWith quoted
  | array items => by rw [surface, renderWith, renderWith, renderItems_surface items]
  | hash entries => by rw [surface, renderWith, renderWith, renderEntries_surface entries]
  | function .. | closure .. => rfl
  | null | boolean _ | integer _ | float _ | string _ | builtin _ => rfl

theorem renderItems_surface : ∀ items : List Value,
    renderItems (surfaceItems items) = renderItems items
  | [] => rfl
  | v :: rest => by
    rw [surfaceItems, renderItems, renderItems, renderWith_surface true v,
      renderItems_surface rest]

theorem renderEntries_surface : ∀ {bound : Option HashKey} (entries : HashEntries Value bound),
    renderEntries (surfaceEntries entries) = renderEntries entries
  | _, .nil => rfl
  | _, .cons key v _ rest => by
    rw [surfaceEntries, renderEntries, renderEntries, renderWith_surface true v,
      renderEntries_surface rest]

end

@[simp]
theorem display_surface (v : Value) : v.surface.display = v.display :=
  renderWith_surface false v

/-! ### Operators -/

mutual

/-- Functions are compared by number, so equality only sees surfaces. -/
theorem equal_surface : ∀ a b : Value, a.surface.equal b.surface = a.equal b
  | array a, b => by
    cases b with
    | array b => rw [surface, surface, equal, equal, equalItems_surface a]
    | null | boolean | integer | float | string | builtin | hash | function | closure => rfl
  | hash a, b => by
    cases b with
    | hash b => rw [surface, surface, equal, equal, equalEntries_surface a]
    | null | boolean | integer | float | string | builtin | array | function | closure => rfl
  | function .., b | closure .., b => by cases b <;> rfl
  | null, b | boolean _, b | integer _, b | float _, b | string _, b | builtin _, b => by
    cases b <;> rfl

theorem equalItems_surface : ∀ a b : List Value,
    equalItems (surfaceItems a) (surfaceItems b) = equalItems a b
  | [], b => by cases b <;> rfl
  | _ :: _, [] => rfl
  | v :: as, w :: bs => by
    rw [surfaceItems, surfaceItems, equalItems, equalItems, equal_surface v w,
      equalItems_surface as bs]

theorem equalEntries_surface : ∀ {bound bound' : Option HashKey} (a : HashEntries Value bound)
    (b : HashEntries Value bound'),
    equalEntries (surfaceEntries a) (surfaceEntries b) = equalEntries a b
  | _, _, .nil, b => by cases b <;> rfl
  | _, _, .cons .., .nil => rfl
  | _, _, .cons k v _ as, .cons l w _ bs => by
    rw [surfaceEntries, surfaceEntries, equalEntries, equalEntries, equal_surface v w,
      equalEntries_surface as bs]

end

theorem unary_surface (op : Opcode) (v : Value) :
    Value.unary op v.surface = (Value.unary op v).map surface := by
  cases op <;> cases v <;> rfl

theorem integerOperation_map_surface (op : Opcode) (a b : Int64) :
    (integerOperation op a b).map surface = integerOperation op a b := by
  unfold integerOperation
  split
  case h_1 | h_2 | h_3 | h_6 | h_7 | h_8 => rfl
  case h_4 | h_5 => split <;> rfl

theorem floatOperation_map_surface (op : Opcode) (a b : Binary64) :
    (floatOperation op a b).map surface = floatOperation op a b := by
  cases op <;> rfl

theorem stringOperation_map_surface (op : Opcode) (a b : String) :
    (stringOperation op a b).map surface = stringOperation op a b := by
  cases op <;> rfl

/-- All operators but the tests for equality go by the types of the operands. -/
theorem binary_of_ne_equal {op : Opcode} (hequal : op ≠ .equal) (hnotEqual : op ≠ .notEqual)
    (a b : Value) :
    Value.binary op a b =
      match a, b with
      | integer a, integer b => integerOperation op a b
      | float a, float b => floatOperation op a b
      | integer a, float b => floatOperation op (.ofInt a.toInt) b
      | float a, integer b => floatOperation op a (.ofInt b.toInt)
      | string a, string b => stringOperation op a b
      | _, _ => .error (unsupported op a b) := by
  unfold Value.binary
  split
  · exact absurd rfl hequal
  · exact absurd rfl hnotEqual
  · rfl

theorem binary_surface (op : Opcode) (a b : Value) :
    Value.binary op a.surface b.surface = (Value.binary op a b).map surface := by
  by_cases hop : op = .equal ∨ op = .notEqual
  · rcases hop with rfl | rfl <;> simp [Value.binary, equal_surface, Except.map]
  · -- splitting the operator too would give a goal for each operator and pair of types
    obtain ⟨hequal, hnotEqual⟩ := not_or.mp hop
    rw [binary_of_ne_equal hequal hnotEqual, binary_of_ne_equal hequal hnotEqual]
    cases a with
    | integer =>
      cases b with
      | integer => exact (integerOperation_map_surface op _ _).symm
      | float => exact (floatOperation_map_surface op _ _).symm
      | null | boolean | string | builtin | array | hash | function | closure => rfl
    | float =>
      cases b with
      | integer | float => exact (floatOperation_map_surface op _ _).symm
      | null | boolean | string | builtin | array | hash | function | closure => rfl
    | string =>
      cases b with
      | string => exact (stringOperation_map_surface op _ _).symm
      | null | boolean | integer | float | builtin | array | hash | function | closure => rfl
    | null | boolean | builtin | array | hash | function | closure => cases b <;> rfl

/-! ### Collections -/

theorem itemAt_map_surface (items : List Value) (i : Int64) :
    itemAt (items.map surface) i = (itemAt items i).surface := by
  unfold itemAt
  split
  · rfl
  · rw [List.getD_eq_getElem?_getD, List.getD_eq_getElem?_getD, List.getElem?_map]
    cases items[i.toNatClampNeg]? <;> rfl

theorem index_surface (container key : Value) :
    Value.index container.surface key.surface = (Value.index container key).map surface := by
  cases container with
  | array items =>
    cases key with
    | integer i => simp [Value.index, Except.map, itemAt_map_surface]
    | null | boolean | float | string | builtin | array | hash | function | closure => rfl
  | hash entries =>
    rw [surface_hash, Value.index, Value.index, toKey_surface]
    cases key.toKey with
    | error fault => rfl
    | ok k =>
      simp only [bind, Except.bind, pure, Except.pure, Except.map, HashEntries.find?_map]
      cases HashEntries.find? k entries <;> rfl
  | null | boolean | integer | float | string | builtin | function | closure =>
    cases key <;> rfl

theorem keyedPairs_map_surface (pairs : List (Value × Value)) :
    keyedPairs (pairs.map (Prod.map surface surface)) =
      (keyedPairs pairs).map (List.map (Prod.map id surface)) := by
  induction pairs with
  | nil => rfl
  | cons pair rest ih =>
    obtain ⟨k, v⟩ := pair
    simp only [List.map_cons, Prod.map_apply, keyedPairs, toKey_surface, ih]
    cases k.toKey with
    | error fault => rfl
    | ok key =>
      cases keyedPairs rest <;> rfl

theorem hashOfPairs_surface (pairs : List (Value × Value)) :
    hashOfPairs (pairs.map (Prod.map surface surface)) = (hashOfPairs pairs).map surface := by
  rw [hashOfPairs, hashOfPairs, keyedPairs_map_surface]
  cases keyedPairs pairs with
  | error fault => rfl
  | ok keyed =>
    simp [Except.map, bind, Except.bind, pure, Except.pure, HashEntries.ofPairs_map]

end Value

/-! ### Built-in functions -/

namespace Builtin

open Value

theorem arrayArgument_surface (b : Builtin) (v : Value) :
    b.arrayArgument v.surface = (b.arrayArgument v).map (List.map surface) := by
  cases v with
  | array items => simp [arrayArgument, Except.map]
  | null | boolean | integer | float | string | builtin | hash | function | closure => rfl

theorem length_surface (v : Value) : length v.surface = (length v).map surface := by
  cases v with
  | array items => simp [length, Except.map]
  | hash entries => simp [length, Except.map, HashEntries.length_map]
  | null | boolean | integer | float | string | builtin | function | closure => rfl

theorem headD_map_surface (items : List Value) :
    (items.map surface).headD .null = (items.headD .null).surface := by
  cases items <;> rfl

theorem getLastD_map_surface (items : List Value) :
    (items.map surface).getLastD .null = (items.getLastD .null).surface := by
  rw [List.getLastD_eq_getLast?, List.getLastD_eq_getLast?, List.getLast?_map]
  cases items.getLast? <;> rfl

/-- What is done with the items of an array argument, on surfaces and on the values. -/
theorem arrayArgument_bind_surface (b : Builtin) (v : Value) {f : List Value → Except Fault Value}
    (h : ∀ items, f (items.map surface) = (f items).map surface) :
    (b.arrayArgument v.surface >>= f) = (b.arrayArgument v >>= f).map surface := by
  rw [arrayArgument_surface]
  cases b.arrayArgument v with
  | error fault => rfl
  | ok items => exact h items

theorem evaluate_surface (b : Builtin) (args : List Value) :
    b.evaluate (args.map surface) = (b.evaluate args).map surface := by
  match b, args with
  | .puts, _ => rfl
  | .len, [v] => exact length_surface v
  | .first, [v] =>
    exact arrayArgument_bind_surface .first v fun items => by
      simp only [headD_map_surface, pure, Except.pure, Except.map]
  | .last, [v] =>
    exact arrayArgument_bind_surface .last v fun items => by
      simp only [getLastD_map_surface, pure, Except.pure, Except.map]
  | .rest, [v] =>
    exact arrayArgument_bind_surface .rest v fun items => by
      cases items <;> simp [pure, Except.pure, Except.map]
  | .push, [v, item] =>
    -- the new item is a surface on one side only, so it is not part of the function of the items
    simp only [List.map_cons, List.map_nil, evaluate, arrayArgument_surface]
    cases arrayArgument .push v <;> simp [bind, Except.bind, pure, Except.pure, Except.map]
  | .push, [] | .push, [_] | .push, _ :: _ :: _ :: _ => simp [evaluate, Except.map]
  | .len, [] | .first, [] | .last, [] | .rest, [] => rfl
  | .len, _ :: _ :: _ | .first, _ :: _ :: _ | .last, _ :: _ :: _ | .rest, _ :: _ :: _ =>
    simp [evaluate, Except.map]

theorem printed_surface (b : Builtin) (args : List Value) :
    b.printed (args.map surface) = b.printed args := by
  cases b <;> simp [printed, Function.comp_def]

end Builtin

end Bytescript
