/-
Program files hold their programs exactly.

Main statement: `File.decode_eq_ok_iff`. A file is accepted if and only if it is what is written
for a program whose numbers fit into their bytes, and then that program is read from it. So reading
undoes writing (`File.decode_encode`), and a program has one file only (`File.encode_of_decode`).

Design notes: `Reader.Inverts` compares a reader with a writer. It speaks about any input that
follows, so that it can be used for a part of a file, and it is an equivalence, so that the way from
the bytes to the program and the way back are followed in one proof.
-/
import Mathlib.Data.List.Basic
import Bytescript.Bytecode.File
import Bytescript.Proofs.Emission

namespace Bytescript

namespace File

/-! ### Numbers -/

theorem length_littleEndian (width n : Nat) : (littleEndian width n).length = width := by
  induction width generalizing n with
  | zero => rfl
  | succ width ih => rw [littleEndian, List.length_cons, ih]

namespace Reader

theorem littleEndianValue_littleEndian {width n : Nat} (h : n < Nat.pow 256 width) :
    littleEndianValue (littleEndian width n) = n := by
  induction width generalizing n with
  | zero =>
    have : n = 0 := by simpa using h
    rw [littleEndian, littleEndianValue, this]
  | succ width ih =>
    have hhigh : n / 256 < Nat.pow 256 width := by
      rw [Nat.pow_eq, Nat.pow_succ, Nat.mul_comm] at h
      exact Nat.div_lt_of_lt_mul h
    rw [littleEndian, littleEndianValue, ih hhigh]
    show n % 256 + 256 * (n / 256) = n
    omega

theorem littleEndianValue_lt (bytes : List UInt8) :
    littleEndianValue bytes < Nat.pow 256 bytes.length := by
  induction bytes with
  | nil => simp [littleEndianValue]
  | cons b rest ih =>
    have hb := b.toNat_lt
    rw [littleEndianValue, List.length_cons, Nat.pow_eq, Nat.pow_succ]
    rw [Nat.pow_eq] at ih
    omega

theorem littleEndian_littleEndianValue (bytes : List UInt8) :
    littleEndian bytes.length (littleEndianValue bytes) = bytes := by
  induction bytes with
  | nil => rfl
  | cons b rest ih =>
    have hb := b.toNat_lt
    have hlow : (b.toNat + 256 * littleEndianValue rest).toUInt8 = b := by
      apply UInt8.toNat_inj.mp
      show (b.toNat + 256 * littleEndianValue rest) % 256 = b.toNat
      omega
    have hhigh : (b.toNat + 256 * littleEndianValue rest) / 256 = littleEndianValue rest := by
      omega
    rw [littleEndianValue, List.length_cons, littleEndian, hlow, hhigh, ih]

/-! ### Readers that succeed -/

variable {α β : Type} {input rest : List UInt8}

/-- The result of a reader and the input it leaves. -/
def exec (reader : Reader α) (input : List UInt8) : Except DecodeError α × List UInt8 :=
  (reader.run input).run

/-- One reader after another: the second one goes on where the first one stopped. -/
theorem exec_bind (x : Reader α) (f : α → Reader β) (input : List UInt8) :
    exec (x >>= f) input = match exec x input with
      | (.ok a, mid) => exec (f a) mid
      | (.error e, mid) => (.error e, mid) := by
  show (ExceptT.run (x >>= f)).run input = _
  rw [ExceptT.run_bind, StateT.run_bind]
  show _ = match x.run.run input with
    | (.ok a, mid) => exec (f a) mid
    | (.error e, mid) => (.error e, mid)
  rcases x.run.run input with ⟨_ | _, _⟩ <;> rfl

theorem bind_ok {x : Reader α} {f : α → Reader β} {b : β} :
    exec (x >>= f) input = (.ok b, rest) ↔
      ∃ a mid, exec x input = (.ok a, mid) ∧ exec (f a) mid = (.ok b, rest) := by
  rw [exec_bind]
  rcases exec x input with ⟨e | a, mid⟩
  · simp
  · simp

theorem pure_ok {a b : α} : exec (pure a) input = (.ok b, rest) ↔ a = b ∧ input = rest := by
  show (Except.ok a, input) = (Except.ok b, rest) ↔ _
  simp

theorem throw_ok {e : DecodeError} {a : α} : ¬ exec (throw e) input = (.ok a, rest) := by
  intro h
  cases h

theorem fail_ok {defect : Defect} {a : α} : ¬ exec (fail defect) input = (.ok a, rest) :=
  throw_ok

theorem get_ok {state : List UInt8} :
    exec get input = (.ok state, rest) ↔ input = state ∧ input = rest := by
  show (Except.ok input, input) = (Except.ok state, rest) ↔ _
  simp

theorem set_ok {state : List UInt8} {u : PUnit} :
    exec (set state) input = (.ok u, rest) ↔ state = rest := by
  show (Except.ok PUnit.unit, state) = (Except.ok u, rest) ↔ _
  simp

theorem take_ok {count : Nat} {field : Field} {bytes : List UInt8} :
    exec (take count field) input = (.ok bytes, rest) ↔
      bytes.length = count ∧ input = bytes ++ rest := by
  rw [take, bind_ok]
  simp only [get_ok]
  constructor
  · rintro ⟨_, _, ⟨rfl, rfl⟩, h⟩
    split at h
    · next hlength =>
      simp only [bind_ok, set_ok, pure_ok] at h
      obtain ⟨_, _, rfl, rfl, rfl⟩ := h
      exact ⟨hlength, (List.take_append_drop count input).symm⟩
    · exact absurd h fail_ok
  · rintro ⟨rfl, rfl⟩
    refine ⟨_, _, ⟨rfl, rfl⟩, ?_⟩
    rw [if_pos (by simp)]
    simp only [bind_ok, set_ok, pure_ok]
    exact ⟨⟨⟩, _, rfl, by simp, by simp⟩

theorem number_ok {width n : Nat} {field : Field} :
    exec (number width field) input = (.ok n, rest) ↔
      n < Nat.pow 256 width ∧ input = littleEndian width n ++ rest := by
  simp only [number, bind_ok, take_ok, pure_ok]
  constructor
  · rintro ⟨bytes, _, ⟨rfl, rfl⟩, rfl, rfl⟩
    exact ⟨littleEndianValue_lt bytes, by rw [littleEndian_littleEndianValue]⟩
  · rintro ⟨hn, rfl⟩
    exact ⟨_, _, ⟨length_littleEndian width n, rfl⟩, littleEndianValue_littleEndian hn, rfl⟩

/-! ### What fits into a file -/

end Reader

/-- The number of values that four bytes can have. -/
def wordLimit : Nat := Nat.pow 256 4

end File

/-- The numbers fit into four bytes. -/
def Position.IsStorable (p : Position) : Prop :=
  p.line < File.wordLimit ∧ p.column < File.wordLimit ∧ p.offset < File.wordLimit

def Span.IsStorable (s : Span) : Prop :=
  s.start.IsStorable ∧ s.stop.IsStorable

/-- The lengths and all positions fit into four bytes. -/
def Code.IsStorable (c : Code) : Prop :=
  c.bytes.size < File.wordLimit ∧ c.spans.size < File.wordLimit ∧
    ∀ s ∈ c.spans.toList, s.IsStorable

/-- The parameters are among the locals; counts, lengths and the size of the whole function fit into
four bytes. -/
structure FunctionCode.IsStorable (f : FunctionCode) : Prop where
  params_le : f.params ≤ f.locals
  locals : f.locals < File.wordLimit
  params : f.params < File.wordLimit
  name : ∀ s ∈ f.name?, s.utf8ByteSize < File.wordLimit
  code : f.code.IsStorable
  size : (File.function f).length < File.wordLimit

def Constant.IsStorable : Constant → Prop
  | .integer _ | .float _ => True
  | .string s => s.utf8ByteSize < File.wordLimit
  | .function f => f.IsStorable

/-- A program whose parts all fit into a file. -/
structure Program.IsStorable (p : Program) : Prop where
  count : p.constants.size < File.wordLimit
  constants : ∀ c ∈ p.constants.toList, c.IsStorable
  code : p.code.IsStorable

instance (p : Position) : Decidable p.IsStorable :=
  inferInstanceAs (Decidable (_ ∧ _ ∧ _))

instance (s : Span) : Decidable s.IsStorable :=
  inferInstanceAs (Decidable (_ ∧ _))

instance (c : Code) : Decidable c.IsStorable :=
  inferInstanceAs (Decidable (_ ∧ _ ∧ _))

instance (f : FunctionCode) : Decidable f.IsStorable :=
  decidable_of_iff (f.params ≤ f.locals ∧ f.locals < File.wordLimit ∧ f.params < File.wordLimit ∧
      (∀ s ∈ f.name?, s.utf8ByteSize < File.wordLimit) ∧ f.code.IsStorable ∧
      (File.function f).length < File.wordLimit)
    ⟨fun ⟨h₁, h₂, h₃, h₄, h₅, h₆⟩ => ⟨h₁, h₂, h₃, h₄, h₅, h₆⟩,
      fun h => ⟨h.params_le, h.locals, h.params, h.name, h.code, h.size⟩⟩

instance : (c : Constant) → Decidable c.IsStorable
  | .integer _ | .float _ => inferInstanceAs (Decidable True)
  | .string s => inferInstanceAs (Decidable (s.utf8ByteSize < File.wordLimit))
  | .function f => inferInstanceAs (Decidable f.IsStorable)

instance (p : Program) : Decidable p.IsStorable :=
  decidable_of_iff (p.constants.size < File.wordLimit ∧
      (∀ c ∈ p.constants.toList, c.IsStorable) ∧ p.code.IsStorable)
    ⟨fun ⟨h₁, h₂, h₃⟩ => ⟨h₁, h₂, h₃⟩, fun h => ⟨h.count, h.constants, h.code⟩⟩

namespace File.Reader

variable {α β : Type} {input rest : List UInt8}

/-! ### One reader for each writer -/

/-- The reader takes from the front of the input what is written for an item, if the item satisfies
`P`, and nothing else. -/
structure Inverts (reader : Reader α) (write : α → List UInt8) (P : α → Prop) : Prop where
  ok {input rest : List UInt8} {a : α} :
    exec reader input = (.ok a, rest) ↔ P a ∧ input = write a ++ rest

theorem inverts_word (field : Field) : Inverts (word field) File.word (· < wordLimit) :=
  ⟨number_ok⟩

theorem inverts_byte (field : Field) : Inverts (byte field) ([·]) fun _ => True := by
  constructor
  intro input rest b
  simp only [byte, bind_ok, take_ok, pure_ok, true_and]
  constructor
  · rintro ⟨bytes, _, ⟨hlength, rfl⟩, rfl, rfl⟩
    obtain ⟨b, rfl⟩ := List.length_eq_one_iff.mp hlength
    rfl
  · rintro rfl
    exact ⟨[b], rest, ⟨rfl, rfl⟩, rfl, rfl⟩

theorem inverts_sized (length content : Field) :
    Inverts (sized length content) File.sized (·.length < wordLimit) := by
  constructor
  intro input rest bytes
  simp only [sized, bind_ok, (inverts_word _).ok, take_ok]
  constructor
  · rintro ⟨count, _, ⟨hcount, rfl⟩, rfl, rfl⟩
    exact ⟨hcount, (List.append_assoc _ _ _).symm⟩
  · rintro ⟨hlength, rfl⟩
    exact ⟨_, _, ⟨hlength, List.append_assoc _ _ _⟩, rfl, rfl⟩

theorem inverts_text (field : Field) :
    Inverts (text field) File.text (·.utf8ByteSize < wordLimit) := by
  constructor
  intro input rest s
  simp only [text, bind_ok, (inverts_sized _ _).ok]
  constructor
  · rintro ⟨bytes, _, ⟨hlength, rfl⟩, h⟩
    split at h
    · next s' hs' =>
      obtain ⟨rfl, rfl⟩ := pure_ok.mp h
      rw [String.fromUTF8?] at hs'
      split at hs'
      · cases hs'
        exact ⟨hlength, rfl⟩
      · cases hs'
    · exact absurd h fail_ok
  · rintro ⟨hlength, rfl⟩
    refine ⟨s.toByteArray.data.toList, rest, ⟨hlength, rfl⟩, ?_⟩
    have hs : String.fromUTF8? ⟨s.toByteArray.data.toList.toArray⟩ = some s := by
      rw [String.fromUTF8?, dif_pos s.isValidUTF8]
      rfl
    rw [hs]
    exact pure_ok.mpr ⟨rfl, rfl⟩

theorem inverts_position : Inverts position File.position Position.IsStorable := by
  constructor
  intro input rest p
  simp only [position, bind_ok, (inverts_word _).ok, pure_ok]
  constructor
  · rintro ⟨line, _, ⟨hline, rfl⟩, column, _, ⟨hcolumn, rfl⟩, offset, _, ⟨hoffset, rfl⟩, rfl, rfl⟩
    exact ⟨⟨hline, hcolumn, hoffset⟩, by simp [File.position]⟩
  · rintro ⟨⟨hline, hcolumn, hoffset⟩, rfl⟩
    exact ⟨_, _, ⟨hline, by simp [File.position]⟩, _, _, ⟨hcolumn, rfl⟩, _, _, ⟨hoffset, rfl⟩,
      rfl, rfl⟩

theorem inverts_span : Inverts span File.span Span.IsStorable := by
  constructor
  intro input rest s
  simp only [span, bind_ok, inverts_position.ok, pure_ok]
  constructor
  · rintro ⟨start, _, ⟨hstart, rfl⟩, stop, _, ⟨hstop, rfl⟩, rfl, rfl⟩
    exact ⟨⟨hstart, hstop⟩, by simp [File.span]⟩
  · rintro ⟨⟨hstart, hstop⟩, rfl⟩
    exact ⟨_, _, ⟨hstart, by simp [File.span]⟩, _, _, ⟨hstop, rfl⟩, rfl, rfl⟩

/-- Items are read one after the other, and added to those found before. -/
theorem items_ok {reader : Reader α} {write : α → List UInt8} {P : α → Prop}
    (h : Inverts reader write P) {count : Nat} {found all : Array α} :
    exec (items reader count found) input = (.ok all, rest) ↔
      ∃ new : List α, all = found ++ new.toArray ∧ new.length = count ∧ (∀ a ∈ new, P a) ∧
        input = new.flatMap write ++ rest := by
  induction count generalizing input found with
  | zero =>
    simp only [items, pure_ok]
    constructor
    · rintro ⟨rfl, rfl⟩
      exact ⟨[], by simp⟩
    · rintro ⟨new, rfl, hlength, -, rfl⟩
      rw [List.length_eq_zero_iff.mp hlength]
      simp
  | succ count ih =>
    simp only [items, bind_ok, h.ok, ih]
    constructor
    · rintro ⟨a, _, ⟨ha, rfl⟩, new, rfl, rfl, hnew, rfl⟩
      exact ⟨a :: new, by simp, rfl, by simpa using ⟨ha, hnew⟩, by simp⟩
    · rintro ⟨new, rfl, hlength, hnew, rfl⟩
      obtain ⟨a, new, rfl⟩ := List.exists_cons_of_length_eq_add_one hlength
      obtain ⟨ha, hnew⟩ := List.forall_mem_cons.mp hnew
      exact ⟨a, _, ⟨ha, by simp⟩, new, by simp, Nat.succ.inj hlength, hnew, rfl⟩

theorem length_span (s : Span) : (File.span s).length = 24 := by
  simp [File.span, File.position, File.word, length_littleEndian]

theorem length_flatMap_span (spans : List Span) :
    (spans.flatMap File.span).length = 24 * spans.length := by
  induction spans with
  | nil => rfl
  | cons s rest ih =>
    rw [List.flatMap_cons, List.length_append, length_span, ih, List.length_cons]
    omega

/-- The table of spans of a code, as it is written. -/
theorem spans_ok {table : Array Span} :
    exec spans input = (.ok table, rest) ↔
      (table.size < wordLimit ∧ ∀ s ∈ table.toList, s.IsStorable) ∧
        input = File.word table.size ++ (table.toList.flatMap File.span ++ rest) := by
  simp only [spans, bind_ok, (inverts_word _).ok, get_ok]
  constructor
  · rintro ⟨count, _, ⟨hcount, rfl⟩, _, _, ⟨rfl, rfl⟩, h⟩
    split at h
    · exact absurd h fail_ok
    · obtain ⟨new, rfl, rfl, hnew, rfl⟩ := (items_ok inverts_span).mp h
      exact ⟨⟨by simpa using hcount, by simpa using hnew⟩, by simp⟩
  · rintro ⟨⟨hsize, hspans⟩, rfl⟩
    refine ⟨table.size, _, ⟨hsize, rfl⟩, _, _, ⟨rfl, rfl⟩, ?_⟩
    -- the table that was written is not longer than the input
    have hlength : ¬ (table.toList.flatMap File.span ++ rest).length < 24 * table.size := by
      rw [List.length_append, length_flatMap_span, Array.length_toList]
      omega
    rw [if_neg hlength]
    exact (items_ok inverts_span).mpr ⟨table.toList, by simp, Array.length_toList, hspans, rfl⟩

theorem inverts_code : Inverts code File.code Code.IsStorable := by
  constructor
  intro input rest c
  simp only [code, bind_ok, (inverts_sized _ _).ok, spans_ok, pure_ok]
  constructor
  · rintro ⟨bytes, _, ⟨hbytes, rfl⟩, table, _, ⟨⟨hsize, hspans⟩, rfl⟩, rfl, rfl⟩
    exact ⟨⟨by simpa using hbytes, hsize, hspans⟩, by simp [File.code]⟩
  · rintro ⟨⟨hbytes, hsize, hspans⟩, rfl⟩
    exact ⟨c.bytes.toList, _, ⟨by simpa using hbytes, by simp [File.code]⟩, c.spans, _,
      ⟨⟨hsize, hspans⟩, rfl⟩, rfl, rfl⟩

theorem inverts_name :
    Inverts name File.name fun name? => ∀ s ∈ name?, s.utf8ByteSize < wordLimit := by
  constructor
  intro input rest name?
  simp only [name, bind_ok, (inverts_byte _).ok, true_and]
  constructor
  · rintro ⟨flag, _, rfl, h⟩
    split at h
    · next hflag =>
      obtain ⟨rfl, rfl⟩ := pure_ok.mp h
      exact ⟨by simp, by simp [hflag, File.name]⟩
    · split at h
      · next hflag =>
        simp only [bind_ok, (inverts_text _).ok, pure_ok] at h
        obtain ⟨s, _, ⟨hs, rfl⟩, rfl, rfl⟩ := h
        exact ⟨by simpa using hs, by simp [hflag, File.name]⟩
      · exact absurd h fail_ok
  · rintro ⟨hname, rfl⟩
    cases name? with
    | none => exact ⟨0, rest, rfl, pure_ok.mpr ⟨rfl, rfl⟩⟩
    | some s =>
      refine ⟨1, File.text s ++ rest, rfl, ?_⟩
      show exec (do return some (← text .functionName)) _ = _
      simp only [bind_ok, (inverts_text _).ok, pure_ok]
      exact ⟨s, _, ⟨hname s rfl, rfl⟩, rfl, rfl⟩

/-- A function, without the limit on the size of the whole. -/
theorem function_ok {f : FunctionCode} :
    exec function input = (.ok f, rest) ↔
      (f.params ≤ f.locals ∧ f.locals < wordLimit ∧ f.params < wordLimit ∧
        (∀ s ∈ f.name?, s.utf8ByteSize < wordLimit) ∧ f.code.IsStorable) ∧
        input = File.function f ++ rest := by
  simp only [function, bind_ok, (inverts_word _).ok]
  constructor
  · rintro ⟨locals, _, ⟨hlocals, rfl⟩, params, _, ⟨hparams, rfl⟩, h⟩
    split at h
    · exact absurd h fail_ok
    · next hle =>
      simp only [bind_ok, inverts_name.ok, inverts_code.ok, pure_ok] at h
      obtain ⟨name?, _, ⟨hname, rfl⟩, body, _, ⟨hbody, rfl⟩, rfl, rfl⟩ := h
      exact ⟨⟨Nat.not_lt.mp hle, hlocals, hparams, hname, hbody⟩, by simp [File.function]⟩
  · rintro ⟨⟨hle, hlocals, hparams, hname, hbody⟩, rfl⟩
    refine ⟨_, _, ⟨hlocals, by rw [File.function, List.append_assoc]⟩, _, _,
      ⟨hparams, List.append_assoc _ _ _⟩, ?_⟩
    rw [if_neg (Nat.not_lt.mpr hle)]
    simp only [bind_ok, inverts_name.ok, inverts_code.ok, pure_ok]
    exact ⟨_, _, ⟨hname, List.append_assoc _ _ _⟩, _, _, ⟨hbody, rfl⟩, rfl, rfl⟩

theorem within_ok {piece : List UInt8} {reader : Reader α} {leftOver : Defect} {a : α} :
    exec (within piece reader leftOver) input = (.ok a, rest) ↔
      exec reader piece = (.ok a, []) ∧ input = rest := by
  have hpiece : exec reader piece = (reader.run piece).run := rfl
  rw [within, hpiece]
  rcases (reader.run piece).run with ⟨e | b, _ | ⟨byte, more⟩⟩
  · simp [throw_ok]
  · simp [throw_ok]
  · simp [pure_ok]
  · simp [fail_ok]

/-- Eight bytes hold any number of 64 bits. -/
theorem number_eight_ok {n : Nat} {field : Field} :
    exec (number 8 field) input = (.ok n, rest) ↔
      ∃ bits : UInt64, n = bits.toNat ∧ input = littleEndian 8 bits.toNat ++ rest := by
  rw [number_ok]
  constructor
  · rintro ⟨hn, rfl⟩
    have hbits : n = n.toUInt64.toNat := (Nat.mod_eq_of_lt hn).symm
    exact ⟨n.toUInt64, hbits, by rw [← hbits]⟩
  · rintro ⟨bits, rfl, rfl⟩
    exact ⟨bits.toNat_lt, rfl⟩

theorem inverts_constant : Inverts constant File.constant Constant.IsStorable := by
  constructor
  intro input rest c
  simp only [constant, bind_ok, (inverts_word _).ok]
  constructor
  · rintro ⟨tag, _, ⟨-, rfl⟩, h⟩
    split at h
    · simp only [bind_ok, number_eight_ok, pure_ok] at h
      obtain ⟨_, _, ⟨bits, rfl, rfl⟩, rfl, rfl⟩ := h
      exact ⟨trivial, by simp [File.constant]⟩
    · simp only [bind_ok, number_eight_ok, pure_ok] at h
      obtain ⟨_, _, ⟨bits, rfl, rfl⟩, rfl, rfl⟩ := h
      exact ⟨trivial, by simp [File.constant]⟩
    · simp only [bind_ok, (inverts_text _).ok, pure_ok] at h
      obtain ⟨s, _, ⟨hs, rfl⟩, rfl, rfl⟩ := h
      exact ⟨hs, by simp [File.constant]⟩
    · simp only [bind_ok, (inverts_sized _ _).ok, within_ok, function_ok, pure_ok] at h
      obtain ⟨_, _, ⟨hsize, rfl⟩, f, _, ⟨⟨hf, rfl⟩, rfl⟩, rfl, rfl⟩ := h
      -- the body is read on its own, and nothing of it is left over
      obtain ⟨hle, hlocals, hparams, hname, hcode⟩ := hf
      rw [List.append_nil] at hsize ⊢
      exact ⟨⟨hle, hlocals, hparams, hname, hcode, hsize⟩, by simp [File.constant]⟩
    · exact absurd h throw_ok
  · rintro ⟨hc, rfl⟩
    cases c with
    | integer n =>
      refine ⟨1, _, ⟨by decide, List.append_assoc _ _ _⟩, ?_⟩
      simp only [bind_ok, number_eight_ok, pure_ok]
      exact ⟨_, _, ⟨n.toUInt64, rfl, rfl⟩, by simp, rfl⟩
    | float x =>
      refine ⟨2, _, ⟨by decide, List.append_assoc _ _ _⟩, ?_⟩
      simp only [bind_ok, number_eight_ok, pure_ok]
      exact ⟨_, _, ⟨x.bits, rfl, rfl⟩, by simp, rfl⟩
    | string s =>
      refine ⟨3, _, ⟨by decide, List.append_assoc _ _ _⟩, ?_⟩
      simp only [bind_ok, (inverts_text _).ok, pure_ok]
      exact ⟨_, _, ⟨hc, rfl⟩, rfl, rfl⟩
    | function f =>
      obtain ⟨hle, hlocals, hparams, hname, hcode, hsize⟩ := hc
      refine ⟨4, _, ⟨by decide, List.append_assoc _ _ _⟩, ?_⟩
      simp only [bind_ok, (inverts_sized _ _).ok, within_ok, function_ok, pure_ok]
      exact ⟨_, _, ⟨hsize, rfl⟩, f, _,
        ⟨⟨⟨hle, hlocals, hparams, hname, hcode⟩, (List.append_nil _).symm⟩, rfl⟩, rfl, rfl⟩

theorem body_ok {p : Program} :
    exec body input = (.ok p, rest) ↔ (p.IsStorable ∧ input = File.word p.constants.size ++
      (p.constants.toList.flatMap File.constant ++ File.code p.code)) ∧ rest = [] := by
  simp only [body, bind_ok, (inverts_word _).ok, items_ok inverts_constant, inverts_code.ok, get_ok]
  constructor
  · rintro ⟨count, _, ⟨hcount, rfl⟩, _, _, ⟨constants, rfl, rfl, hconstants, rfl⟩, main, _,
      ⟨hmain, rfl⟩, left, _, ⟨rfl, rfl⟩, h⟩
    split at h
    · next hleft =>
      obtain ⟨rfl, rfl⟩ := pure_ok.mp h
      rw [List.length_eq_zero_iff.mp hleft]
      exact ⟨⟨⟨by simpa using hcount, by simpa using hconstants, hmain⟩, by simp⟩, rfl⟩
    · exact absurd h fail_ok
  · rintro ⟨⟨⟨hcount, hconstants, hcode⟩, rfl⟩, rfl⟩
    refine ⟨_, _, ⟨hcount, rfl⟩, p.constants, _,
      ⟨p.constants.toList, by simp, Array.length_toList, hconstants, rfl⟩, p.code, [],
      ⟨hcode, (List.append_nil _).symm⟩, [], [], ⟨rfl, rfl⟩, ?_⟩
    exact pure_ok.mpr ⟨rfl, rfl⟩

end File.Reader

/-- Files and the programs that fit into them correspond one to one. -/
theorem File.decode_eq_ok_iff {bytes : List UInt8} {p : Program} :
    File.decode bytes = .ok p ↔ p.IsStorable ∧ bytes = File.encode p := by
  constructor
  · intro h
    rw [File.decode] at h
    split at h
    · cases h
    · next v rest hdrop =>
      split at h
      · cases h
      · next hmagic =>
        split at h
        · cases h
        · next hversion =>
          rw [not_not] at hmagic hversion
          obtain ⟨⟨hp, rfl⟩, -⟩ := File.Reader.body_ok.mp (Prod.ext h rfl)
          refine ⟨hp, ?_⟩
          rw [← List.take_append_drop File.magic.length bytes, hmagic, hdrop, hversion]
          simp [File.encode]
  · rintro ⟨hp, rfl⟩
    have hbody := congrArg Prod.fst (File.Reader.body_ok.mpr ⟨⟨hp, rfl⟩, rfl⟩)
    exact hbody

/-- What is written for a program is read back as that program, provided that its functions have
room for their parameters among their locals and that all numbers fit into their bytes. The
functions of compiled programs have that room. -/
theorem File.decode_encode :
    (∀ p : Program, p.IsStorable → File.decode (File.encode p) = .ok p) ∧
      ∀ (st st₁ : CompilerState) (ast : Ast) (p : Program), st.Reachable →
        compileFrom st ast = .ok (p, st₁) →
        ∀ f, .function f ∈ p.constants.toList → f.params ≤ f.locals := by
  constructor
  · intro p hp
    exact File.decode_eq_ok_iff.mpr ⟨hp, rfl⟩
  · intro st st₁ ast p hst hcompile f hf
    exact params_le_locals hst hcompile hf

/-- `let half = fn(x, y) { let z = x / 2.5; z }; "é"`. -/
def halving : Ast :=
  let body : Block := .mk [.declare .constant "z" (.binary .div (.identifier "x" {})
    (.float ⟨0x4004000000000000⟩ {}) {}) {}, .expression (.identifier "z" {}) {}] {}
  ⟨[.declare .constant "half" (.function (some "half") [⟨"x", {}⟩, ⟨"y", {}⟩] body {}) {},
    .expression (.string "é" {}) {}]⟩

theorem compile_halving : ∃ p st, compileFrom {} halving = .ok (p, st) ∧ p.IsStorable ∧
    ∃ f, .function f ∈ p.constants.toList ∧ f.params = 2 := by
  have h : (compileFrom {} halving).toOption.map (fun r =>
      (decide r.1.IsStorable, r.1.constants[1]?.map fun c =>
        c.casesOn (fun _ => 0) (fun _ => 0) (fun _ => 0) (·.params))) = some (true, some 2) := by
    decide +kernel
  cases hcompile : compileFrom {} halving with
  | error e =>
    rw [hcompile] at h
    cases h
  | ok r =>
    rw [hcompile] at h
    injection h with h
    injection h with hstorable hparams
    obtain ⟨c, hc, hparams⟩ := Option.map_eq_some_iff.mp hparams
    cases c with
    | function f =>
      refine ⟨r.1, r.2, rfl, of_decide_eq_true hstorable, f, ?_, hparams⟩
      exact Array.mem_toList_iff.mpr (Array.mem_of_getElem? hc)
    | integer | float | string => cases hparams

theorem File.decode_encode_halving : ∃ p st, compileFrom {} halving = .ok (p, st) ∧
    p.IsStorable ∧ File.decode (File.encode p) = .ok p ∧
    ∃ f, .function f ∈ p.constants.toList ∧ 2 ≤ f.locals := by
  obtain ⟨p, st, hcompile, hp, f, hf, hparams⟩ := compile_halving
  refine ⟨p, st, hcompile, hp, File.decode_encode.1 p hp, f, hf, ?_⟩
  rw [← hparams]
  exact File.decode_encode.2 {} st halving p .init hcompile f hf

/-- A file that is accepted is the one that is written for its program, and no other file holds
that program. -/
theorem File.encode_of_decode {bytes : List UInt8} {p : Program} (h : File.decode bytes = .ok p) :
    File.encode p = bytes ∧ p.IsStorable ∧
      ∀ other, File.decode other = .ok p → other = bytes := by
  obtain ⟨hp, rfl⟩ := File.decode_eq_ok_iff.mp h
  refine ⟨rfl, hp, ?_⟩
  intro other hother
  exact (File.decode_eq_ok_iff.mp hother).2

/-- A file with the constant -1 and a function `f`, and main code with one span. -/
def smallFile : List UInt8 :=
  [0x4b, 0x54, 0x4c, 0x43, 1, 2, 0, 0, 0,
    1, 0, 0, 0, 255, 255, 255, 255, 255, 255, 255, 255,
    4, 0, 0, 0, 25, 0, 0, 0, 1, 0, 0, 0, 1, 0, 0, 0, 1, 1, 0, 0, 0, 102,
    3, 0, 0, 0, 21, 0, 30, 0, 0, 0, 0,
    5, 0, 0, 0, 32, 0, 1, 0, 1,
    1, 0, 0, 0, 1, 0, 0, 0, 1, 0, 0, 0, 0, 0, 0, 0, 1, 0, 0, 0, 4, 0, 0, 0, 3, 0, 0, 0]

theorem File.encode_of_decode_smallFile :
    ∃ p, File.decode smallFile = .ok p ∧ p.constants.size = 2 ∧ File.encode p = smallFile := by
  have h : (File.decode smallFile).toOption.map (·.constants.size) = some 2 := by decide +kernel
  cases hdecode : File.decode smallFile with
  | error e =>
    rw [hdecode] at h
    cases h
  | ok p =>
    rw [hdecode] at h
    exact ⟨p, rfl, Option.some.inj h, (File.encode_of_decode hdecode).1⟩

end Bytescript
