/-
Instructions and where they stand in code.

Main statements:

* `Instruction.decodeAt_encode` — where the bytes of an instruction stand, that instruction is
  read, provided its operands fit the bytes they are given;
* `Fragment.toList_assemble` — assembled code is the bytes of its instructions, one after another,
  with the spans of the instructions.

Design notes: `StandsAt` speaks about single bytes, so that it splits along any division of the
bytes. `Fragment.Extends` says which instructions were added to a fragment; the code of every
part of a tree is such an extension, and `Fragment.Holds` says where it stands in the end.
-/
import Mathlib.Data.List.Forall2
import Bytescript.Bytecode.Fragment

namespace Bytescript

/-! ### Bytes -/

/-- The bytes `part` stand in `bytes` from an offset on. -/
def StandsAt (bytes : Array UInt8) (offset : Nat) (part : List UInt8) : Prop :=
  ∀ k, k < part.length → bytes[offset + k]? = part[k]?

namespace StandsAt

variable {bytes : Array UInt8} {offset : Nat} {part rest : List UInt8}

theorem append_iff :
    StandsAt bytes offset (part ++ rest) ↔
      StandsAt bytes offset part ∧ StandsAt bytes (offset + part.length) rest := by
  constructor
  · intro h
    refine ⟨fun k hk => ?_, fun k hk => ?_⟩
    · rw [h k (by rw [List.length_append]; omega), List.getElem?_append_left hk]
    · have := h (part.length + k) (by rw [List.length_append]; omega)
      rw [Nat.add_assoc, this, List.getElem?_append_right (by omega)]
      congr 1
      omega
  · rintro ⟨hpart, hrest⟩ k hk
    by_cases hlt : k < part.length
    · rw [hpart k hlt, List.getElem?_append_left hlt]
    · rw [List.length_append] at hk
      have := hrest (k - part.length) (by omega)
      rw [List.getElem?_append_right (by omega), ← this]
      congr 1
      omega

theorem head {b : UInt8} (h : StandsAt bytes offset (b :: rest)) : bytes[offset]? = some b := by
  simpa using h 0 (by simp)

theorem tail {b : UInt8} (h : StandsAt bytes offset (b :: rest)) :
    StandsAt bytes (offset + 1) rest := by
  intro k hk
  have := h (k + 1) (by simpa using hk)
  rw [Nat.add_assoc, Nat.add_comm 1 k, this, List.getElem?_cons_succ]

/-- What stands in the code does not reach beyond it. -/
theorem le_size (h : StandsAt bytes offset part) (hpart : part ≠ []) :
    offset + part.length ≤ bytes.size := by
  have hpos : 0 < part.length := List.length_pos_iff.mpr hpart
  have hlast := h (part.length - 1) (by omega)
  rw [List.getElem?_eq_getElem (by omega)] at hlast
  obtain ⟨hlt, -⟩ := Array.getElem?_eq_some_iff.mp hlast
  omega

theorem of_toList {pre post : List UInt8} (h : bytes.toList = pre ++ part ++ post) :
    StandsAt bytes pre.length part := by
  intro k hk
  rw [← Array.getElem?_toList, h, List.append_assoc, List.getElem?_append_right (by omega),
    Nat.add_sub_cancel_left, List.getElem?_append_left hk]

end StandsAt

/-! ### Numbers -/

theorem length_bigEndian (width n : Nat) : (bigEndian width n).length = width := by
  induction width with
  | zero => rfl
  | succ width ih => rw [bigEndian, List.length_cons, ih]

/-- The last byte of a number is its remainder. -/
theorem bigEndian_succ (width n : Nat) :
    bigEndian (width + 1) n = bigEndian width (n / 256) ++ [n.toUInt8] := by
  induction width with
  | zero => rfl
  | succ width ih =>
    have hshift : n >>> (8 * (width + 1)) = (n / 256) >>> (8 * width) := by
      rw [show 8 * (width + 1) = 8 + 8 * width by omega, Nat.shiftRight_add,
        Nat.shiftRight_eq_div_pow n 8]
    rw [bigEndian, ih, hshift, bigEndian, List.cons_append]

theorem bigEndianAt?_bigEndian {bytes : Array UInt8} {offset width n : Nat}
    (h : StandsAt bytes offset (bigEndian width n)) (hn : n < Nat.pow 256 width) :
    bigEndianAt? bytes offset width = some n := by
  -- bytes are read from the left, so the induction takes off the last one
  induction width generalizing n with
  | zero =>
    have : n = 0 := by simpa using hn
    rw [bigEndianAt?, this]
  | succ width ih =>
    rw [bigEndian_succ, StandsAt.append_iff, length_bigEndian] at h
    have hlow : bytes[offset + width]? = some n.toUInt8 := h.2.head
    have hhigh : n / 256 < Nat.pow 256 width := by
      rw [Nat.pow_eq, Nat.pow_succ, Nat.mul_comm] at hn
      exact Nat.div_lt_of_lt_mul hn
    rw [bigEndianAt?, ih h.1 hhigh, hlow]
    show some (256 * (n / 256) + n % 256) = some n
    rw [Nat.div_add_mod]

theorem bigEndianAt?_le_size {bytes : Array UInt8} {offset width n : Nat}
    (h : bigEndianAt? bytes offset width = some n) (hoffset : offset ≤ bytes.size) :
    offset + width ≤ bytes.size := by
  cases width with
  | zero => exact hoffset
  | succ width =>
    rw [bigEndianAt?] at h
    obtain ⟨high, -, h⟩ := Option.bind_eq_some_iff.mp h
    obtain ⟨low, hlow, -⟩ := Option.bind_eq_some_iff.mp h
    exact (Array.getElem?_eq_some_iff.mp hlow).1

/-! ### Instructions -/

theorem Opcode.width_eq (op : Opcode) : op.width = 1 + op.operandWidths.foldr (· + ·) 0 := by
  cases op <;> rfl

theorem Opcode.width_pos (op : Opcode) : 0 < op.width := by
  rw [Opcode.width_eq]
  omega

theorem Opcode.ofByte?_toByte (op : Opcode) : Opcode.ofByte? op.toByte = some op := by
  cases op <;> rfl

namespace Instruction

/-- The operands are as many as the opcode takes, and each fits its number of bytes. -/
def Fits (i : Instruction) : Prop :=
  List.Forall₂ (fun width operand => operand < Nat.pow 256 width) i.opcode.operandWidths i.operands

theorem length_encodeOperands (widths operands : List Nat) :
    (encodeOperands widths operands).length = widths.foldr (· + ·) 0 := by
  induction widths generalizing operands with
  | nil => rfl
  | cons width widths ih =>
    rw [encodeOperands, List.length_append, length_bigEndian, ih, List.foldr_cons]

theorem length_encode (i : Instruction) : i.encode.length = i.opcode.width := by
  rw [encode, List.length_cons, length_encodeOperands]
  cases i.opcode <;> rfl

theorem operandsAt?_encodeOperands {bytes : Array UInt8} {widths operands : List Nat}
    (hfit : List.Forall₂ (fun width operand => operand < Nat.pow 256 width) widths operands)
    {offset : Nat} (h : StandsAt bytes offset (encodeOperands widths operands)) :
    operandsAt? bytes widths offset = some operands := by
  induction hfit generalizing offset with
  | nil => rfl
  | @cons width operand widths operands hlt _ ih =>
    rw [encodeOperands, StandsAt.append_iff, length_bigEndian] at h
    rw [operandsAt?, bigEndianAt?_bigEndian h.1 hlt, ih h.2]
    rfl

theorem length_operandsAt? {bytes : Array UInt8} {widths operands : List Nat} {offset : Nat}
    (h : operandsAt? bytes widths offset = some operands) : operands.length = widths.length := by
  induction widths generalizing offset operands with
  | nil =>
    rw [operandsAt?, Option.some.injEq] at h
    rw [← h, List.length_nil]
  | cons width widths ih =>
    rw [operandsAt?] at h
    obtain ⟨operand, -, h⟩ := Option.bind_eq_some_iff.mp h
    obtain ⟨rest, hrest, h⟩ := Option.bind_eq_some_iff.mp h
    cases h
    rw [List.length_cons, ih hrest, List.length_cons]

/-- An instruction that is read begins with the byte of its opcode, and its operands follow. -/
theorem exists_of_decodeAt {bytes : Array UInt8} {offset : Nat} {i : Instruction}
    (h : decodeAt bytes offset = some (.ok i)) :
    ∃ byte, bytes[offset]? = some byte ∧ Opcode.ofByte? byte = some i.opcode ∧
      operandsAt? bytes i.opcode.operandWidths (offset + 1) = some i.operands := by
  obtain ⟨byte, hbyte, h⟩ := Option.map_eq_some_iff.mp h
  rw [decodeFrom] at h
  split at h
  · cases h
  · next opcode hopcode =>
    split at h
    · cases h
    · next operands hoperands =>
      cases h
      exact ⟨byte, hbyte, hopcode, hoperands⟩

/-- An instruction that is read has all its operands. -/
theorem length_operands_of_decodeAt {bytes : Array UInt8} {offset : Nat} {i : Instruction}
    (h : decodeAt bytes offset = some (.ok i)) :
    i.operands.length = i.opcode.operandWidths.length := by
  obtain ⟨_, -, -, hoperands⟩ := exists_of_decodeAt h
  exact length_operandsAt? hoperands

/-- Operands that are read stand inside the code. -/
theorem operandsAt?_le_size {bytes : Array UInt8} {widths operands : List Nat} {offset : Nat}
    (h : operandsAt? bytes widths offset = some operands) (hoffset : offset ≤ bytes.size) :
    offset + widths.foldr (· + ·) 0 ≤ bytes.size := by
  induction widths generalizing offset operands with
  | nil => exact hoffset
  | cons width widths ih =>
    rw [operandsAt?] at h
    obtain ⟨operand, hoperand, h⟩ := Option.bind_eq_some_iff.mp h
    obtain ⟨rest, hrest, -⟩ := Option.bind_eq_some_iff.mp h
    rw [List.foldr_cons, ← Nat.add_assoc]
    exact ih hrest (bigEndianAt?_le_size hoperand hoffset)

/-- An instruction that is read stands inside the code. -/
theorem le_size_of_decodeAt {bytes : Array UInt8} {offset : Nat} {i : Instruction}
    (h : decodeAt bytes offset = some (.ok i)) : offset + i.opcode.width ≤ bytes.size := by
  obtain ⟨_, hbyte, -, hoperands⟩ := exists_of_decodeAt h
  obtain ⟨hlt, -⟩ := Array.getElem?_eq_some_iff.mp hbyte
  rw [Opcode.width_eq, ← Nat.add_assoc]
  exact operandsAt?_le_size hoperands hlt

/-- Where the bytes of an instruction stand, that instruction is read. -/
theorem decodeAt_encode {bytes : Array UInt8} {offset : Nat} {i : Instruction} (hfit : i.Fits)
    (h : StandsAt bytes offset i.encode) : decodeAt bytes offset = some (.ok i) := by
  rw [decodeAt, h.head, Option.map_some, decodeFrom, Opcode.ofByte?_toByte]
  simp only [operandsAt?_encodeOperands hfit h.tail]

end Instruction

/-! ### Fragments -/

/-- The bytes of located instructions. -/
def encodeAll (instructions : List (Located Instruction)) : List UInt8 :=
  instructions.flatMap (·.value.encode)

@[simp] theorem encodeAll_nil : encodeAll [] = [] := rfl

@[simp]
theorem encodeAll_append (is js : List (Located Instruction)) :
    encodeAll (is ++ js) = encodeAll is ++ encodeAll js :=
  List.flatMap_append

@[simp]
theorem encodeAll_singleton (i : Located Instruction) : encodeAll [i] = i.value.encode := by
  simp [encodeAll]

theorem length_encodeAll (is : List (Located Instruction)) :
    (encodeAll is).length = totalWidth is := by
  induction is with
  | nil => rfl
  | cons i rest ih =>
    rw [← List.singleton_append, encodeAll_append, encodeAll_singleton, List.length_append,
      Instruction.length_encode, ih]
    rfl

/-- The spans of the bytes of located instructions. -/
def spansOf (instructions : List (Located Instruction)) : List Span :=
  instructions.flatMap fun i => List.replicate i.value.encode.length i.span

theorem length_spansOf (is : List (Located Instruction)) :
    (spansOf is).length = (encodeAll is).length := by
  induction is with
  | nil => rfl
  | cons i rest ih =>
    have hspans : spansOf (i :: rest) =
      List.replicate i.value.encode.length i.span ++ spansOf rest := List.flatMap_cons
    have hbytes : encodeAll (i :: rest) = i.value.encode ++ encodeAll rest := List.flatMap_cons
    rw [hspans, hbytes, List.length_append, List.length_append, List.length_replicate, ih]

namespace Fragment

variable {code code₁ code₂ : Fragment} {is js : List (Located Instruction)}

/-- Assembled code is the bytes and the spans of its instructions, one after another. -/
theorem toList_assemble (code : Fragment) :
    code.assemble.bytes.toList = encodeAll code.instructions.toList ∧
      code.assemble.spans.toList = spansOf code.instructions.toList := by
  -- both are collected in one fold, which is followed from any start
  have hfold : ∀ (is : List (Located Instruction)) (start : Code),
      let code := is.foldl (fun code i =>
        let encoded : List UInt8 := i.value.encode
        (⟨code.bytes ++ encoded, code.spans ++ List.replicate encoded.length i.span⟩ : Code)) start
      code.bytes.toList = start.bytes.toList ++ encodeAll is ∧
        code.spans.toList = start.spans.toList ++ spansOf is := by
    intro is
    induction is with
    | nil =>
      intro start
      simp [spansOf]
    | cons i rest ih =>
      intro start
      obtain ⟨hbytes, hspans⟩ := ih ⟨start.bytes ++ i.value.encode,
        start.spans ++ List.replicate i.value.encode.length i.span⟩
      refine ⟨hbytes.trans ?_, hspans.trans ?_⟩
      · simp [encodeAll]
      · simp [spansOf]
  rw [assemble, ← Array.foldl_toList]
  exact hfold _ _

theorem bytes_assemble (code : Fragment) :
    code.assemble.bytes.toList = encodeAll code.instructions.toList :=
  code.toList_assemble.1

theorem toList_spans_assemble (code : Fragment) :
    code.assemble.spans.toList = spansOf code.instructions.toList :=
  code.toList_assemble.2

theorem size_eq_length (code : Fragment) :
    code.size = (encodeAll code.instructions.toList).length := by
  rw [length_encodeAll, code.size_eq]

/-- The fragment `code₁` is `code` with the instructions `is` added. -/
structure Extends (code : Fragment) (is : List (Located Instruction)) (code₁ : Fragment) :
    Prop where
  start : code₁.start = code.start
  instructions : code₁.instructions.toList = code.instructions.toList ++ is

namespace Extends

protected theorem refl (code : Fragment) : code.Extends [] code :=
  ⟨rfl, by simp⟩

protected theorem trans (h : code.Extends is code₁) (h₁ : code₁.Extends js code₂) :
    code.Extends (is ++ js) code₂ where
  start := h₁.start.trans h.start
  instructions := by rw [h₁.instructions, h.instructions, List.append_assoc]

theorem stop (h : code.Extends is code₁) : code₁.stop = code.stop + (encodeAll is).length := by
  rw [Fragment.stop, Fragment.stop, h.start, code₁.size_eq_length, h.instructions,
    encodeAll_append, List.length_append, ← code.size_eq_length, Nat.add_assoc]

theorem emit (h : code.Extends is code₁) (op : Opcode) (operands : List Nat) (span : Span) :
    code.Extends (is ++ [⟨⟨op, operands⟩, span⟩]) (code₁.emit op operands span) where
  start := h.start
  instructions := by
    rw [← List.append_assoc, ← h.instructions]
    simp [Fragment.emit]

/-- Instructions of a fragment that was begun elsewhere can be added too. -/
theorem append (h : code.Extends is code₁) {offset : Nat}
    (h₁ : (startingAt offset).Extends js code₂) : code.Extends (is ++ js) (code₁.append code₂) where
  start := h.start
  instructions := by
    rw [← List.append_assoc, ← h.instructions]
    simp [Fragment.append, h₁.instructions, startingAt]

/-- The instructions that were added are determined. -/
theorem unique (h : code.Extends is code₁) (h₁ : code.Extends js code₁) : is = js :=
  List.append_cancel_left (h.instructions.symm.trans h₁.instructions)

end Extends

/-- The fragment `code₁` begins with the instructions of `code`. -/
def Begins (code code₁ : Fragment) : Prop :=
  ∃ is, code.Extends is code₁

namespace Begins

protected theorem refl (code : Fragment) : code.Begins code :=
  ⟨[], .refl code⟩

protected theorem trans (h : code.Begins code₁) (h₁ : code₁.Begins code₂) : code.Begins code₂ := by
  obtain ⟨is, h⟩ := h
  obtain ⟨js, h₁⟩ := h₁
  exact ⟨is ++ js, h.trans h₁⟩

protected theorem emit (code : Fragment) (op : Opcode) (operands : List Nat) (span : Span) :
    code.Begins (code.emit op operands span) :=
  ⟨_, (Extends.refl code).emit op operands span⟩

protected theorem append (code : Fragment) {offset : Nat}
    (h : (startingAt offset).Begins code₁) : code.Begins (code.append code₁) := by
  obtain ⟨is, h⟩ := h
  exact ⟨_, (Extends.refl code).append h⟩

end Begins

/-- The instructions by which `code₁` extends `code` stand in `bytes`, just after `code`. -/
def Holds (bytes : Array UInt8) (code code₁ : Fragment) : Prop :=
  ∃ is, code.Extends is code₁ ∧ StandsAt bytes code.stop (encodeAll is)

namespace Holds

variable {bytes : Array UInt8}

/-- Code that is built in two steps stands in two parts. -/
theorem split (h : Holds bytes code code₂) (h₁ : code.Begins code₁) (h₂ : code₁.Begins code₂) :
    Holds bytes code code₁ ∧ Holds bytes code₁ code₂ := by
  obtain ⟨all, hall, hstands⟩ := h
  obtain ⟨is, h₁⟩ := h₁
  obtain ⟨js, h₂⟩ := h₂
  rw [hall.unique (h₁.trans h₂), encodeAll_append, StandsAt.append_iff, ← h₁.stop] at hstands
  exact ⟨⟨is, h₁, hstands.1⟩, ⟨js, h₂, hstands.2⟩⟩

/-- An instruction that was added stands at the end of the code before it. -/
theorem emit {op : Opcode} {operands : List Nat} {span : Span}
    (h : Holds bytes code (code.emit op operands span)) :
    StandsAt bytes code.stop (Instruction.encode ⟨op, operands⟩) := by
  obtain ⟨is, hext, hstands⟩ := h
  rw [hext.unique ((Extends.refl code).emit op operands span), List.nil_append,
    encodeAll_singleton] at hstands
  exact hstands

/-- Code that stands somewhere ends there too. -/
theorem stop_le (h : Holds bytes code code₁) (hcode : code.stop ≤ bytes.size) :
    code₁.stop ≤ bytes.size := by
  obtain ⟨is, hext, hstands⟩ := h
  rw [hext.stop]
  by_cases his : encodeAll is = []
  · rw [his]
    exact hcode
  · exact hstands.le_size his

/-- Code that was begun elsewhere stands where it was appended, if that is where it was begun. -/
theorem appended (h : Holds bytes code (code.append code₁))
    (h₁ : (startingAt code.stop).Begins code₁) : Holds bytes (startingAt code.stop) code₁ := by
  obtain ⟨is, hext, hstands⟩ := h
  obtain ⟨js, h₁⟩ := h₁
  rw [hext.unique ((Extends.refl code).append h₁), List.nil_append] at hstands
  exact ⟨js, h₁, hstands⟩

end Holds

/-- Assembled code holds all of its instructions. -/
theorem holds_assemble (h : Begins {} code) : Holds code.assemble.bytes {} code := by
  obtain ⟨is, hext⟩ := h
  have his : code.instructions.toList = is := hext.instructions
  have hbytes : code.assemble.bytes.toList = [] ++ encodeAll is ++ [] := by
    rw [bytes_assemble, his, List.append_nil, List.nil_append]
  exact ⟨is, hext, .of_toList hbytes⟩

theorem size_assemble (h : Begins {} code) : code.assemble.bytes.size = code.stop := by
  obtain ⟨is, hext⟩ := h
  have his : code.instructions.toList = is := hext.instructions
  rw [← Array.length_toList, bytes_assemble, his, hext.stop]
  exact (Nat.zero_add _).symm

@[simp] theorem stop_startingAt (offset : Nat) : (startingAt offset).stop = offset := rfl

theorem stop_append (h : (startingAt code.stop).Begins code₁) :
    (code.append code₁).stop = code₁.stop := by
  obtain ⟨is, h⟩ := h
  rw [h.stop, ((Extends.refl code).append h).stop]
  rfl

theorem start_of_begins {offset : Nat} (h : (startingAt offset).Begins code₁) :
    code₁.start = offset := by
  obtain ⟨is, h⟩ := h
  exact h.start

theorem stop_le_of_begins (h : code.Begins code₁) : code.stop ≤ code₁.stop := by
  obtain ⟨is, h⟩ := h
  rw [h.stop]
  omega

theorem stop_emit (code : Fragment) (op : Opcode) (operands : List Nat) (span : Span) :
    (code.emit op operands span).stop = code.stop + op.width := by
  rw [stop, emit, stop, Nat.add_assoc]

/-! ### The last instruction -/

theorem removeLast_emit (code : Fragment) (op : Opcode) (operands : List Nat) (span : Span) :
    (code.emit op operands span).removeLast = code := by
  cases code
  simp [emit, removeLast]

theorem replaceLast_emit (code : Fragment) (op op' : Opcode) (operands : List Nat) (span : Span) :
    (code.emit op operands span).replaceLast op' = code.emit op' [] span := by
  have hlast : (code.emit op operands span).instructions.back? = some ⟨⟨op, operands⟩, span⟩ := by
    simp [emit]
  rw [replaceLast, hlast, removeLast_emit]

theorem endsIn_self (code : Fragment) (op : Opcode) : endsIn code code op = false := by
  simp [endsIn]

theorem endsIn_emit (h : code.Begins code₁) (op op' : Opcode) (operands : List Nat)
    (span : Span) : endsIn code (code₁.emit op operands span) op' = decide (op = op') := by
  obtain ⟨is, h⟩ := h
  have hlt : code.instructions.size < (code₁.emit op operands span).instructions.size := by
    rw [emit, Array.size_push, ← Array.length_toList, ← Array.length_toList, h.instructions,
      List.length_append]
    omega
  rw [endsIn, decide_eq_true hlt, Bool.true_and]
  simp [emit]

theorem emit_removeLast {last : Located Instruction} (h : code.instructions.back? = some last) :
    code.removeLast.emit last.value.opcode last.value.operands last.span = code := by
  obtain ⟨start, instructions, size, hsize⟩ := code
  obtain ⟨front, rfl⟩ := Array.back?_eq_some_iff.mp h
  simp [emit, removeLast, hsize, totalWidth_append, totalWidth]

/-- Where something was added, there is an instruction that was added last. -/
theorem Begins.eq_or_emit (h : code.Begins code₁) :
    code₁ = code ∨ ∃ code' op operands span, code.Begins code' ∧
      code₁ = code'.emit op operands span := by
  obtain ⟨is, hstart, his⟩ := h
  by_cases hnil : is = []
  · left
    obtain ⟨start, instructions, size, hsize⟩ := code
    obtain ⟨start₁, instructions₁, size₁, hsize₁⟩ := code₁
    subst hnil
    obtain rfl : instructions₁ = instructions := Array.toList_inj.mp (by simpa using his)
    obtain rfl : start₁ = start := hstart
    simp [hsize, hsize₁]
  · right
    have hlast : code₁.instructions.back? = some (is.getLast hnil) := by
      rw [← Array.getLast?_toList, his, List.getLast?_append_of_ne_nil _ hnil,
        List.getLast?_eq_some_getLast hnil]
    refine ⟨code₁.removeLast, _, _, _, ⟨is.dropLast, hstart, ?_⟩, (emit_removeLast hlast).symm⟩
    rw [removeLast, Array.toList_pop, his, List.dropLast_append_of_ne_nil hnil]

theorem exists_emit_of_endsIn {op : Opcode} (h : code.Begins code₁)
    (hends : endsIn code code₁ op = true) :
    ∃ (code' : Fragment) (operands : List Nat) (span : Span),
      code₁ = code'.emit op operands span := by
  obtain rfl | ⟨code', op', operands, span, hbegins, rfl⟩ := h.eq_or_emit
  · rw [endsIn_self] at hends
    cases hends
  · rw [endsIn_emit hbegins, decide_eq_true_eq] at hends
    rw [hends]
    exact ⟨code', operands, span, rfl⟩

end Fragment

end Bytescript
