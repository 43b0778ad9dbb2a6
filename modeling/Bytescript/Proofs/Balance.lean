/-
Code whose jumps and stack heights fit together.

Main statements: `Balanced.append`, `Balanced.emit` and `Balanced.branching`. They build balanced
code in the ways in which the compiler builds code.

Design notes: what a piece of code does to the height of the stack is the sum of what its
instructions do, so the height at every instruction can be read off the instructions before it. To
make this true of code with jumps, a `jump` is counted as taking a value: it ends an arm of a
conditional, and the other arm, which follows, begins without the value of the first one. The
instructions of a piece are written with targets that count from its beginning; `moved` takes them
to another place.
-/
import Bytescript.Proofs.Layout

namespace Bytescript

/-- The instructions that may go on elsewhere. -/
def Opcode.isJump (op : Opcode) : Bool :=
  op = .jump ∨ op = .jumpNotTruthy

theorem Opcode.isJump_iff {op : Opcode} : op.isJump ↔ op = .jump ∨ op = .jumpNotTruthy := by
  simp [isJump]

namespace Instruction

/-- Number of values that an instruction takes from the stack. -/
def pops (i : Instruction) : Nat :=
  match i.opcode with
  | .add | .sub | .mul | .div | .mod | .equal | .notEqual | .greaterThan | .greaterEqual | .index =>
    2
  | .pop | .minus | .bang | .jump | .jumpNotTruthy | .setGlobal | .assignGlobal | .setLocal
  | .assignLocal | .returnValue => 1
  | .array | .hash => i.operands.getD 0 0
  | .call => i.operands.getD 0 0 + 1
  | .closure => i.operands.getD 1 0
  | .constant | .true | .false | .null | .getGlobal | .getLocal | .getBuiltin | .getFree
  | .currentClosure | .ret => 0

/-- Number of values that an instruction leaves on the stack. -/
def pushes (i : Instruction) : Nat :=
  match i.opcode with
  | .pop | .jump | .jumpNotTruthy | .setGlobal | .assignGlobal | .setLocal | .assignLocal
  | .returnValue | .ret => 0
  | _ => 1

/-- Number of values that a jump takes from the stack on its way to the target. -/
def taken (i : Instruction) : Nat :=
  match i.opcode with
  | .jumpNotTruthy => 1
  | _ => 0

theorem taken_le_pops (i : Instruction) : i.taken ≤ i.pops := by
  rw [taken]
  split
  · next hop => simp [pops, hop]
  · exact Nat.zero_le _

/-- The instruction in code that stands `distance` bytes further down. -/
def moved (distance : Nat) (i : Instruction) : Instruction :=
  if i.opcode.isJump then { i with operands := i.operands.map (· + distance) } else i

variable (distance : Nat) (i : Instruction)

@[simp]
theorem opcode_moved : (i.moved distance).opcode = i.opcode := by
  rw [moved]
  split <;> rfl

theorem moved_of_not_isJump {i : Instruction} (h : i.opcode.isJump = false) :
    i.moved distance = i := by
  simp [moved, h]

theorem operands_moved {i : Instruction} (h : i.opcode.isJump = true) :
    (i.moved distance).operands = i.operands.map (· + distance) := by
  simp [moved, h]

@[simp]
theorem moved_zero : i.moved 0 = i := by
  rw [moved]
  split <;> simp

@[simp]
theorem moved_moved (distance' : Nat) :
    (i.moved distance).moved distance' = i.moved (distance + distance') := by
  cases h : i.opcode.isJump with
  | false => simp [moved, h]
  | true =>
    have hadd : (· + distance') ∘ (· + distance) = (· + (distance + distance')) :=
      funext fun a => Nat.add_assoc a distance distance'
    simp only [moved, h, if_true, List.map_map, hadd]

@[simp]
theorem pops_moved : (i.moved distance).pops = i.pops := by
  cases h : i.opcode.isJump with
  | false => rw [moved_of_not_isJump distance h]
  | true =>
    rw [pops, pops, opcode_moved]
    rcases Opcode.isJump_iff.mp h with hop | hop <;> rw [hop]

@[simp]
theorem pushes_moved : (i.moved distance).pushes = i.pushes := by
  rw [pushes, pushes, opcode_moved]

@[simp]
theorem taken_moved : (i.moved distance).taken = i.taken := by
  rw [taken, taken, opcode_moved]

end Instruction

/-! ### Code at another place -/

/-- Instructions in code that stands `distance` bytes further down. -/
def moved (distance : Nat) (is : List (Located Instruction)) : List (Located Instruction) :=
  is.map fun i => ⟨i.value.moved distance, i.span⟩

section

variable (distance : Nat) (is js : List (Located Instruction))

@[simp] theorem moved_nil : moved distance [] = [] := rfl

@[simp]
theorem moved_append : moved distance (is ++ js) = moved distance is ++ moved distance js :=
  List.map_append

@[simp]
theorem moved_singleton (i : Located Instruction) :
    moved distance [i] = [⟨i.value.moved distance, i.span⟩] := rfl

@[simp] theorem moved_zero : moved 0 is = is := by simp [moved]

@[simp]
theorem moved_moved (distance' : Nat) :
    moved distance' (moved distance is) = moved (distance + distance') is := by
  simp [moved]

@[simp] theorem length_moved : (moved distance is).length = is.length := by simp [moved]

theorem take_moved (k : Nat) : (moved distance is).take k = moved distance (is.take k) :=
  List.map_take.symm

theorem getElem?_moved (k : Nat) :
    (moved distance is)[k]? = is[k]?.map fun i => ⟨i.value.moved distance, i.span⟩ :=
  List.getElem?_map

@[simp]
theorem length_encodeAll_moved :
    (encodeAll (moved distance is)).length = (encodeAll is).length := by
  induction is with
  | nil => rfl
  | cons i rest ih =>
    have hcons : ∀ (i : Located Instruction) (rest : List (Located Instruction)),
        (encodeAll (i :: rest)).length = i.value.opcode.width + (encodeAll rest).length := by
      intro i rest
      rw [← Instruction.length_encode, ← List.length_append]
      rfl
    rw [hcons, ← ih]
    show (encodeAll (_ :: moved distance rest)).length = _
    rw [hcons, Instruction.opcode_moved]

end

/-! ### Heights -/

/-- By how much instructions raise the stack. -/
def rise : List (Located Instruction) → Int
  | [] => 0
  | i :: rest => i.value.pushes - i.value.pops + rise rest

@[simp] theorem rise_nil : rise [] = 0 := rfl

@[simp]
theorem rise_singleton (i : Located Instruction) :
    rise [i] = i.value.pushes - i.value.pops := by
  simp [rise]

@[simp]
theorem rise_append (is js : List (Located Instruction)) : rise (is ++ js) = rise is + rise js := by
  induction is with
  | nil => simp
  | cons i rest ih =>
    rw [List.cons_append, rise, ih, rise]
    omega

@[simp]
theorem rise_moved (distance : Nat) (is : List (Located Instruction)) :
    rise (moved distance is) = rise is := by
  induction is with
  | nil => rfl
  | cons i rest ih =>
    show rise (_ :: moved distance rest) = _
    rw [rise, ih, rise]
    simp

/-- The offset of the instruction at an index. -/
def offsetAt (is : List (Located Instruction)) (k : Nat) : Nat :=
  (encodeAll (is.take k)).length

section

variable {is : List (Located Instruction)} {k : Nat} {i : Located Instruction}

theorem offsetAt_succ (h : is[k]? = some i) :
    offsetAt is (k + 1) = offsetAt is k + i.value.opcode.width := by
  rw [offsetAt, List.take_add_one, h, encodeAll_append, List.length_append, offsetAt,
    ← Instruction.length_encode]
  simp

theorem rise_take_succ (h : is[k]? = some i) :
    rise (is.take (k + 1)) = rise (is.take k) - i.value.pops + i.value.pushes := by
  rw [List.take_add_one, h, rise_append, Option.toList_some, rise_singleton]
  omega

theorem offsetAt_length (is : List (Located Instruction)) :
    offsetAt is is.length = (encodeAll is).length := by
  rw [offsetAt, List.take_length]

theorem offsetAt_le (is : List (Located Instruction)) (k : Nat) :
    offsetAt is k ≤ (encodeAll is).length := by
  conv_rhs => rw [← List.take_append_drop k is, encodeAll_append, List.length_append]
  exact Nat.le_add_right _ _

/-- Instructions further down have larger offsets. -/
theorem offsetAt_lt {k' : Nat} (hk : k < k') (hk' : k' ≤ is.length) :
    offsetAt is k < offsetAt is k' := by
  induction k' with
  | zero => omega
  | succ k' ih =>
    have hwidth := Opcode.width_pos is[k'].value.opcode
    rw [offsetAt_succ (List.getElem?_eq_getElem hk')]
    by_cases heq : k = k'
    · subst heq
      omega
    · have hlt := ih (by omega) (by omega)
      omega

theorem offsetAt_injective {k' : Nat} (hk : k ≤ is.length) (hk' : k' ≤ is.length)
    (h : offsetAt is k = offsetAt is k') : k = k' := by
  rcases Nat.lt_trichotomy k k' with hlt | heq | hgt
  · have := offsetAt_lt hlt hk'
    omega
  · exact heq
  · have := offsetAt_lt hgt hk
    omega

/-- The bytes of an instruction have its span. -/
theorem getElem?_spansOf {x : Nat} (hi : is[k]? = some i) (hle : offsetAt is k ≤ x)
    (hlt : x < offsetAt is (k + 1)) : (spansOf is)[x]? = some i.span := by
  obtain ⟨hk, rfl⟩ := List.getElem?_eq_some_iff.mp hi
  have hsplit : spansOf is = spansOf (is.take k) ++
      (List.replicate is[k].value.encode.length is[k].span ++ spansOf (is.drop (k + 1))) := by
    conv_lhs => rw [← List.take_append_drop k is, List.drop_eq_getElem_cons hk]
    rw [spansOf, List.flatMap_append, List.flatMap_cons]
    rfl
  have hbefore : (spansOf (is.take k)).length = offsetAt is k := length_spansOf _
  have hwidth := offsetAt_succ hi
  rw [← Instruction.length_encode] at hwidth
  rw [hsplit, List.getElem?_append_right (by omega),
    List.getElem?_append_left (by rw [List.length_replicate]; omega), List.getElem?_replicate,
    if_pos (by omega)]

end

/-- The instruction `i` at the index `k` finds its operands above the height at which the code
begins. If it is a jump, then its target is an instruction further down, or the end, and the height
there is the one with which the jump arrives. -/
structure Settled (is : List (Located Instruction)) (k : Nat) (i : Instruction) : Prop where
  pops : i.pops ≤ rise (is.take k)
  target : i.opcode.isJump = true → ∃ k', k < k' ∧ k' ≤ is.length ∧ i.operands = [offsetAt is k'] ∧
    rise (is.take k') = rise (is.take k) - i.taken

/-- Code whose jumps and stack heights fit together. -/
def Balanced (is : List (Located Instruction)) : Prop :=
  ∀ ⦃k i⦄, is[k]? = some i → Settled is k i.value

section

variable {is js pre post : List (Located Instruction)} {k : Nat}

theorem take_inside (hk : k ≤ is.length) :
    (pre ++ moved (encodeAll pre).length is ++ post).take (pre.length + k) =
      pre ++ moved (encodeAll pre).length (is.take k) := by
  rw [List.append_assoc, List.take_length_add_append,
    List.take_append_of_le_length (by simpa using hk), take_moved]

theorem offsetAt_inside (hk : k ≤ is.length) :
    offsetAt (pre ++ moved (encodeAll pre).length is ++ post) (pre.length + k) =
      (encodeAll pre).length + offsetAt is k := by
  rw [offsetAt, take_inside hk, encodeAll_append, List.length_append, length_encodeAll_moved,
    offsetAt]

theorem rise_inside (hk : k ≤ is.length) :
    rise ((pre ++ moved (encodeAll pre).length is ++ post).take (pre.length + k)) =
      rise pre + rise (is.take k) := by
  rw [take_inside hk, rise_append, rise_moved]

/-- An instruction between two parts of the code, and the place it may jump to. -/
theorem Settled.of_split {pre' post' : List (Located Instruction)} {i : Instruction}
    (h : is = pre ++ post) (h' : is = pre' ++ post') (hlt : pre.length < pre'.length)
    (hpops : i.pops ≤ rise pre) (hoperands : i.operands = [(encodeAll pre').length])
    (hrise : rise pre' = rise pre - i.taken) : Settled is pre.length i := by
  have htake : is.take pre.length = pre := by rw [h, List.take_left]
  have htake' : is.take pre'.length = pre' := by rw [h', List.take_left]
  refine ⟨by rwa [htake], fun _ => ⟨pre'.length, hlt, by simp [h'], ?_, ?_⟩⟩
  · rw [offsetAt, htake', hoperands]
  · rw [htake, htake', hrise]

/-- An instruction stays settled where its code becomes part of longer code. -/
theorem Settled.inside {i : Instruction} (h : Settled is k i) (hk : k ≤ is.length)
    (hpre : 0 ≤ rise pre) :
    Settled (pre ++ moved (encodeAll pre).length is ++ post) (pre.length + k)
      (i.moved (encodeAll pre).length) where
  pops := by
    have := h.pops
    rw [rise_inside hk, Instruction.pops_moved]
    omega
  target hjump := by
    rw [Instruction.opcode_moved] at hjump
    obtain ⟨k', hlt, hle, hoperands, hrise⟩ := h.target hjump
    refine ⟨pre.length + k', by omega, by simp; omega, ?_, ?_⟩
    · rw [Instruction.operands_moved _ hjump, hoperands, offsetAt_inside hle, Nat.add_comm]
      rfl
    · rw [rise_inside hle, rise_inside hk, hrise, Instruction.taken_moved]
      omega

theorem getElem?_append_cases {α : Type} {xs ys : List α} {k : Nat} {a : α}
    (h : (xs ++ ys)[k]? = some a) : xs[k]? = some a ∨ ∃ j, k = xs.length + j ∧ ys[j]? = some a := by
  rw [List.getElem?_append] at h
  split at h
  · exact .inl h
  · exact .inr ⟨k - xs.length, by omega, h⟩

theorem eq_of_getElem?_singleton {α : Type} {k : Nat} {a b : α} (h : [a][k]? = some b) :
    k = 0 ∧ a = b := by
  rw [List.getElem?_singleton] at h
  split at h
  · next hk => exact ⟨hk, Option.some.inj h⟩
  · cases h

namespace Balanced

theorem nil : Balanced [] := by
  intro k i h
  simp at h

/-- The instructions of a part of balanced code, as they stand in the whole. -/
theorem inside (h : Balanced is) (pre post : List (Located Instruction)) (hpre : 0 ≤ rise pre)
    {i : Located Instruction} (hi : (moved (encodeAll pre).length is)[k]? = some i) :
    Settled (pre ++ moved (encodeAll pre).length is ++ post) (pre.length + k) i.value := by
  rw [getElem?_moved, Option.map_eq_some_iff] at hi
  obtain ⟨i, hi, rfl⟩ := hi
  have hk := (List.getElem?_eq_some_iff.mp hi).1
  exact (h hi).inside (by omega) hpre

/-- The instructions at the beginning of code, if they are balanced on their own. -/
theorem left (h : Balanced is) (post : List (Located Instruction)) {i : Located Instruction}
    (hi : is[k]? = some i) : Settled (is ++ post) k i.value := by
  have := h.inside [] post (by simp) (by simpa using hi)
  simpa using this

theorem append (h : Balanced is) (h' : Balanced js) (hrise : 0 ≤ rise is) :
    Balanced (is ++ moved (encodeAll is).length js) := by
  intro k i hi
  rcases getElem?_append_cases hi with hi | ⟨j, rfl, hj⟩
  · exact h.left _ hi
  · have := h'.inside is [] hrise hj
    rwa [List.append_nil] at this

theorem emit (h : Balanced is) {i : Located Instruction} (hpops : i.value.pops ≤ rise is)
    (hjump : i.value.opcode.isJump = false) : Balanced (is ++ [i]) := by
  intro k j hj
  rcases getElem?_append_cases hj with hj | ⟨k, rfl, hk⟩
  · exact h.left _ hj
  · obtain ⟨rfl, rfl⟩ := eq_of_getElem?_singleton hk
    exact ⟨by simpa using hpops, fun h => by simp [hjump] at h⟩

end Balanced

end

/-! ### Conditionals -/

section

variable (span : Span) (condition thenArm elseArm : List (Located Instruction))

/-- The place of the first arm. -/
def thenOffset : Nat :=
  (encodeAll condition).length + Opcode.jumpNotTruthy.width

/-- The place of the second arm. -/
def elseOffset : Nat :=
  thenOffset condition + (encodeAll thenArm).length + Opcode.jump.width

/-- Code with a condition and two arms. The first arm is left out unless the condition counts as
true; at its end there is a jump over the second one. -/
def branching : List (Located Instruction) :=
  condition ++ [⟨⟨.jumpNotTruthy, [elseOffset condition thenArm]⟩, span⟩] ++
    moved (thenOffset condition) thenArm ++
    [⟨⟨.jump, [elseOffset condition thenArm + (encodeAll elseArm).length]⟩, span⟩] ++
    moved (elseOffset condition thenArm) elseArm

variable {span condition thenArm elseArm}

theorem rise_branching (hcondition : rise condition = 1) (hthen : rise thenArm = 1)
    (helse : rise elseArm = 1) : rise (branching span condition thenArm elseArm) = 1 := by
  simp only [branching, rise_append, rise_moved, rise_singleton, hcondition, hthen, helse]
  rfl

/-- Code with two jumps, of which one goes from the condition to the second arm and one from the end
of the first arm to the end. -/
theorem Balanced.join {test exit : Located Instruction} {thenStart elseStart : Nat}
    (hcondition : Balanced condition) (hthen : Balanced thenArm) (helse : Balanced elseArm)
    (hcondition₁ : rise condition = 1) (hthen₁ : rise thenArm = 1) (helse₁ : rise elseArm = 1)
    (htest : test.value = ⟨.jumpNotTruthy, [elseStart]⟩)
    (hexit : exit.value = ⟨.jump, [elseStart + (encodeAll elseArm).length]⟩)
    (hthenStart : thenStart = (encodeAll (condition ++ [test])).length)
    (helseStart : elseStart =
      (encodeAll (condition ++ [test] ++ moved thenStart thenArm ++ [exit])).length) :
    Balanced (condition ++ [test] ++ moved thenStart thenArm ++ [exit] ++
      moved elseStart elseArm) := by
  have hrise : rise (condition ++ [test]) = 0 := by
    rw [rise_append, rise_singleton, hcondition₁, htest]
    rfl
  have hrise' : rise (condition ++ [test] ++ moved thenStart thenArm ++ [exit]) = 0 := by
    rw [rise_append, rise_append, hrise, rise_moved, hthen₁, rise_singleton, hexit]
    rfl
  -- the instruction is looked for from behind: second arm, exit, first arm, test, condition
  intro k i hi
  rcases getElem?_append_cases hi with hi | ⟨j, rfl, hj⟩
  · rcases getElem?_append_cases hi with hi | ⟨j, rfl, hj⟩
    · rcases getElem?_append_cases hi with hi | ⟨j, rfl, hj⟩
      · rcases getElem?_append_cases hi with hi | ⟨j, rfl, hj⟩
        · have := hcondition.left
            ([test] ++ (moved thenStart thenArm ++ ([exit] ++ moved elseStart elseArm))) hi
          simpa using this
        · -- the test goes to the beginning of the second arm
          obtain ⟨rfl, rfl⟩ := eq_of_getElem?_singleton hj
          have hsplit : condition ++ [test] ++ moved thenStart thenArm ++ [exit] ++
              moved elseStart elseArm = condition ++
                ([test] ++ (moved thenStart thenArm ++ ([exit] ++ moved elseStart elseArm))) := by
            simp
          refine .of_split hsplit rfl (by simp) ?_ ?_ ?_
          · rw [htest, hcondition₁]
            exact Int.le_refl _
          · rw [htest, ← helseStart]
          · rw [htest, hrise', hcondition₁]
            rfl
      · rw [hthenStart] at hj
        have := hthen.inside (condition ++ [test]) ([exit] ++ moved elseStart elseArm) (by omega) hj
        simpa [hthenStart] using this
    · -- the jump goes to the end
      obtain ⟨rfl, rfl⟩ := eq_of_getElem?_singleton hj
      refine .of_split (List.append_assoc _ _ _) (List.append_nil _).symm (by simp) ?_ ?_ ?_
      · rw [rise_append, hrise, rise_moved, hthen₁, hexit]
        exact Int.le_refl _
      · rw [hexit, encodeAll_append, List.length_append, length_encodeAll_moved, ← helseStart]
      · rw [rise_append, hrise', rise_append, hrise, rise_moved, helse₁, rise_moved, hthen₁, hexit]
        rfl
  · rw [helseStart] at hj
    have := helse.inside _ [] (by omega) hj
    rwa [List.append_nil, ← helseStart] at this

theorem Balanced.branching (hcondition : Balanced condition) (hthen : Balanced thenArm)
    (helse : Balanced elseArm) (hcondition₁ : rise condition = 1) (hthen₁ : rise thenArm = 1)
    (helse₁ : rise elseArm = 1) :
    Balanced (Bytescript.branching span condition thenArm elseArm) := by
  refine hcondition.join hthen helse hcondition₁ hthen₁ helse₁ rfl rfl ?_ ?_
  · simp [thenOffset, Instruction.length_encode]
  · simp only [elseOffset, thenOffset, encodeAll_append, encodeAll_singleton, List.length_append,
      length_encodeAll_moved, Instruction.length_encode]

end

end Bytescript
