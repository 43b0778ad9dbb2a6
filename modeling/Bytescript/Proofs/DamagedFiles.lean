/-
Program files that were cut off or extended.

What is left of a file when its end is missing is not the file of another program: it is refused,
with an error which says that the input ends too early. A file with more bytes behind its end is
refused as well, with their number. The main statement is `File.decode_damaged`.

Design notes: `Reader.NeedsAll reader bytes` says that the reader finds the end of the input on every
beginning of `bytes` but the whole. A beginning of two pieces ends in the first one, or it has all of
the first one and ends in the second (`strictPrefix_append`), so the statement goes from the readers
of the parts of a file to the reader of the file (`NeedsAll.bind`). What the readers do with all of a
piece is known from `Reader.Inverts`.
-/
import Bytescript.Proofs.FileFormat

namespace Bytescript.File

/-- A beginning of two pieces that is not all of them. -/
theorem strictPrefix_append {input front back : List UInt8} (h : input <+: front ++ back)
    (hne : input ≠ front ++ back) :
    (input <+: front ∧ input ≠ front) ∨
      ∃ rest, input = front ++ rest ∧ rest <+: back ∧ rest ≠ back := by
  by_cases hfront : input <+: front ∧ input ≠ front
  · exact .inl hfront
  · right
    have hle : front <+: input := by
      rcases List.prefix_or_prefix_of_prefix h (List.prefix_append front back) with hin | hin
      · have heq : input = front := by
          by_contra hinput
          exact hfront ⟨hin, hinput⟩
        exact heq ▸ List.prefix_rfl
      · exact hin
    obtain ⟨rest, rfl⟩ := hle
    refine ⟨rest, rfl, (List.prefix_append_right_inj front).mp h, ?_⟩
    rintro rfl
    exact hne rfl

theorem length_lt_of_strictPrefix {input bytes : List UInt8} (h : input <+: bytes)
    (hne : input ≠ bytes) : input.length < bytes.length := by
  have hle := h.length_le
  have hlength : input.length ≠ bytes.length := fun heq => hne (h.eq_of_length heq)
  omega

/-- Says that the input ends too early. -/
def Defect.IsEarlyEnd : Defect → Prop
  | endOfInput _ | spanTableTooLong => True
  | _ => False

/-- Says that the file ends too early, in its header or behind it. -/
def DecodeError.IsEarlyEnd : DecodeError → Prop
  | invalidHeader => True
  | malformed defect => defect.IsEarlyEnd
  | _ => False

namespace Reader

variable {α β : Type} {x : Reader α} {f : α → Reader β} {a : α} {front back bytes : List UInt8}

/-- On a beginning of these bytes the reader finds that the input ends too early, unless it is all
of them. -/
def NeedsAll (reader : Reader α) (bytes : List UInt8) : Prop :=
  ∀ input, input <+: bytes → input ≠ bytes →
    ∃ defect rest, exec reader input = (.error (.malformed defect), rest) ∧ defect.IsEarlyEnd

theorem needsAll_nil (x : Reader α) : NeedsAll x [] := by
  intro input hprefix hne
  exact absurd (List.prefix_nil.mp hprefix) hne

/-- What is done after the bytes were read does not matter. -/
theorem NeedsAll.bind_last (hx : NeedsAll x bytes) : NeedsAll (x >>= f) bytes := by
  intro input hprefix hne
  obtain ⟨defect, rest, hexec, hearly⟩ := hx input hprefix hne
  exact ⟨defect, rest, by rw [exec_bind, hexec], hearly⟩

/-- Two pieces, one after the other. -/
theorem NeedsAll.bind (hx : NeedsAll x front)
    (hfront : ∀ rest, exec x (front ++ rest) = (.ok a, rest)) (hf : NeedsAll (f a) back) :
    NeedsAll (x >>= f) (front ++ back) := by
  intro input hprefix hne
  rcases strictPrefix_append hprefix hne with ⟨hin, hnein⟩ | ⟨rest, rfl, hin, hnein⟩
  · exact hx.bind_last input hin hnein
  · obtain ⟨defect, rest', hexec, hearly⟩ := hf rest hin hnein
    refine ⟨defect, rest', ?_, hearly⟩
    rw [exec_bind, hfront]
    exact hexec

/-- The item that was written is read, whatever follows it. -/
theorem Inverts.exec_append {write : α → List UInt8} {P : α → Prop} (h : Inverts x write P)
    (ha : P a) (rest : List UInt8) : exec x (write a ++ rest) = (.ok a, rest) :=
  h.ok.mpr ⟨ha, rfl⟩

/-! ### Numbers and texts -/

theorem needsAll_take {count : Nat} (hcount : bytes.length = count) (field : Field) :
    NeedsAll (take count field) bytes := by
  intro input hprefix hne
  have hlt := length_lt_of_strictPrefix hprefix hne
  have htake : ¬ (input.take count).length = count := by
    rw [List.length_take]
    omega
  refine ⟨.endOfInput field, input, ?_, trivial⟩
  have hget : exec (get : Reader (List UInt8)) input = (.ok input, input) := rfl
  rw [take, exec_bind, hget]
  dsimp only
  rw [if_neg htake]
  rfl

theorem needsAll_number (width n : Nat) (field : Field) :
    NeedsAll (number width field) (littleEndian width n) :=
  (needsAll_take (length_littleEndian width n) field).bind_last

theorem needsAll_word (n : Nat) (field : Field) : NeedsAll (word field) (File.word n) :=
  needsAll_number 4 n field

theorem needsAll_sized (h : bytes.length < wordLimit) (length content : Field) :
    NeedsAll (sized length content) (File.sized bytes) := by
  refine (needsAll_word _ length).bind ((inverts_word length).exec_append h) ?_
  exact needsAll_take rfl content

theorem needsAll_text {s : String} (h : s.utf8ByteSize < wordLimit) (field : Field) :
    NeedsAll (text field) (File.text s) :=
  (needsAll_sized h field field).bind_last

/-! ### Code -/

theorem needsAll_spans {table : Array Span} (h : table.size < wordLimit) :
    NeedsAll spans (File.word table.size ++ table.toList.flatMap File.span) := by
  refine (needsAll_word _ .spanCount).bind ((inverts_word .spanCount).exec_append h) ?_
  -- the length of the table is compared with the input before any span is read
  intro input hprefix hne
  have htable : (table.toList.flatMap File.span).length = 24 * table.size := by
    rw [length_flatMap_span, Array.length_toList]
  have hlt : input.length < 24 * table.size := by
    rw [← htable]
    exact length_lt_of_strictPrefix hprefix hne
  refine ⟨.spanTableTooLong, input, ?_, trivial⟩
  have hget : exec (get : Reader (List UInt8)) input = (.ok input, input) := rfl
  rw [exec_bind, hget]
  dsimp only
  rw [if_pos hlt]
  rfl

theorem needsAll_code {c : Code} (h : c.IsStorable) : NeedsAll code (File.code c) := by
  obtain ⟨hbytes, hspans, -⟩ := h
  have hbytes : c.bytes.toList.length < wordLimit := by
    rw [Array.length_toList]
    exact hbytes
  refine (needsAll_sized hbytes _ _).bind ((inverts_sized _ _).exec_append hbytes) ?_
  exact (needsAll_spans hspans).bind_last

/-! ### Constants -/

theorem needsAll_constant {c : Constant} (h : c.IsStorable) :
    NeedsAll constant (File.constant c) := by
  have htag : ∀ (tag : Nat) (rest : List UInt8), tag < wordLimit →
      exec (word .valueTag) (File.word tag ++ rest) = (.ok tag, rest) :=
    fun tag rest htag => (inverts_word .valueTag).exec_append htag rest
  -- behind the tag of its type, every constant has a number or a piece with its length
  cases c with
  | integer n =>
    refine (needsAll_word 1 .valueTag).bind (htag 1 · (by decide)) ?_
    exact (needsAll_number 8 n.toUInt64.toNat .integer).bind_last
  | float x =>
    refine (needsAll_word 2 .valueTag).bind (htag 2 · (by decide)) ?_
    exact (needsAll_number 8 x.bits.toNat .float).bind_last
  | string s =>
    refine (needsAll_word 3 .valueTag).bind (htag 3 · (by decide)) ?_
    exact (needsAll_text h .string).bind_last
  | function g =>
    refine (needsAll_word 4 .valueTag).bind (htag 4 · (by decide)) ?_
    exact (needsAll_sized h.size .functionSize .function).bind_last

/-- Items one after another. -/
theorem needsAll_items {reader : Reader α} {write : α → List UInt8} {P : α → Prop}
    (h : Inverts reader write P) (hneeds : ∀ a, P a → NeedsAll reader (write a)) {all : List α}
    (hall : ∀ a ∈ all, P a) (found : Array α) :
    NeedsAll (items reader all.length found) (all.flatMap write) := by
  induction all generalizing found with
  | nil => exact needsAll_nil _
  | cons a all ih =>
    obtain ⟨ha, hall⟩ := List.forall_mem_cons.mp hall
    rw [List.flatMap_cons, List.length_cons, items]
    exact (hneeds a ha).bind (h.exec_append ha) (ih hall _)

/-! ### Files -/

/-- What stands behind the header of a file. -/
def content (p : Program) : List UInt8 :=
  File.word p.constants.size ++ (p.constants.toList.flatMap File.constant ++ File.code p.code)

theorem exec_constants {p : Program} (hp : p.IsStorable) (rest : List UInt8) :
    exec (items constant p.constants.size #[])
      (p.constants.toList.flatMap File.constant ++ rest) = (.ok p.constants, rest) :=
  (items_ok inverts_constant).mpr
    ⟨p.constants.toList, by simp, Array.length_toList, hp.constants, rfl⟩

theorem needsAll_body {p : Program} (hp : p.IsStorable) : NeedsAll body (content p) := by
  refine (needsAll_word _ .constantCount).bind
    ((inverts_word .constantCount).exec_append hp.count) ?_
  have hitems := needsAll_items inverts_constant (fun _ => needsAll_constant) hp.constants #[]
  rw [Array.length_toList] at hitems
  refine hitems.bind (exec_constants hp) ?_
  exact (needsAll_code hp.code).bind_last

/-- More bytes behind a program are counted. -/
theorem body_append {p : Program} (hp : p.IsStorable) {more : List UInt8} (hmore : more ≠ []) :
    (exec body (content p ++ more)).1 = .error (.malformed (.trailing more.length)) := by
  have hword := (inverts_word .constantCount).exec_append hp.count
  have hcode := inverts_code.exec_append hp.code
  have hget : exec (get : Reader (List UInt8)) more = (.ok more, more) := rfl
  have hlength : more.length ≠ 0 := by
    intro h
    exact hmore (List.length_eq_zero_iff.mp h)
  rw [content, List.append_assoc, List.append_assoc, body, exec_bind, hword]
  dsimp only
  rw [exec_bind, exec_constants hp]
  dsimp only
  rw [exec_bind, hcode]
  dsimp only
  rw [exec_bind, hget]
  dsimp only
  rw [if_neg hlength]
  rfl

end Reader

theorem encode_eq (p : Program) : encode p = (magic ++ [version]) ++ Reader.content p := by
  simp [encode, Reader.content]

theorem decode_header (rest : List UInt8) :
    decode (magic ++ [version] ++ rest) = (Reader.exec Reader.body rest).1 :=
  rfl

/-- A file that ends before its header is complete. -/
theorem decode_of_prefix_header {bytes : List UInt8} (h : bytes <+: magic ++ [version])
    (hne : bytes ≠ magic ++ [version]) : decode bytes = .error .invalidHeader := by
  have hlength : bytes.length ≤ magic.length := by
    have hlt := length_lt_of_strictPrefix h hne
    rw [List.length_append, List.length_singleton] at hlt
    omega
  rw [decode, List.drop_eq_nil_of_le hlength]

/-- A file without its end is refused because it ends too early, and a file with more behind its end
because of what is left over. -/
theorem decode_damaged {p : Program} (hp : p.IsStorable) :
    (∀ bytes, bytes <+: encode p → bytes ≠ encode p →
      ∃ error, decode bytes = .error error ∧ error.IsEarlyEnd) ∧
    ∀ more, more ≠ [] →
      decode (encode p ++ more) = .error (.malformed (.trailing more.length)) := by
  rw [encode_eq]
  constructor
  · intro bytes hprefix hne
    rcases strictPrefix_append hprefix hne with ⟨hin, hnein⟩ | ⟨rest, rfl, hin, hnein⟩
    · exact ⟨.invalidHeader, decode_of_prefix_header hin hnein, trivial⟩
    · obtain ⟨defect, rest', hexec, hearly⟩ := Reader.needsAll_body hp rest hin hnein
      exact ⟨.malformed defect, by rw [decode_header, hexec], hearly⟩
  · intro more hmore
    rw [List.append_assoc, decode_header]
    exact Reader.body_append hp hmore

/-- The file is cut in the name of its function, and two bytes are added to it. -/
theorem decode_damaged_smallFile : ∃ p, decode smallFile = .ok p ∧ p.IsStorable ∧
    (∃ error, decode (smallFile.take 41) = .error error ∧ error.IsEarlyEnd) ∧
    decode (smallFile ++ [0, 0]) = .error (.malformed (.trailing 2)) := by
  have hsome : (decode smallFile).toOption.isSome = true := by decide +kernel
  cases hdecode : decode smallFile with
  | error e =>
    rw [hdecode] at hsome
    cases hsome
  | ok p =>
    obtain ⟨hp, hencode⟩ := decode_eq_ok_iff.mp hdecode
    obtain ⟨hcut, hextended⟩ := decode_damaged hp
    rw [← hencode] at hcut hextended
    have hne : smallFile.take 41 ≠ smallFile := by decide
    exact ⟨p, rfl, hp, hcut _ (List.take_prefix 41 smallFile) hne, hextended [0, 0] (by simp)⟩

end Bytescript.File
