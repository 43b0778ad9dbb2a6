/-
Streams of instructions and their two readers.

A listing reads a buffer from its start and reports what it cannot read; a running machine reads at
the pointer of its frame and stops where it cannot read. Both find the next instruction behind the
last byte of the one before, so they can lose step only together with the encoder.

* `Listing.Walk` — what a listing comes to from an offset on, as a relation without a bound on the
  number of steps;
* `Machine.fetchMany` — reading instructions at successive pointers, with the pointers;
* `readers_invert_encoding` — both readers give back every stream of instructions at the running
  sums of their widths, and on any bytes a listing ends, at offsets that increase, with
  instructions whose encodings are the bytes where they are listed.
-/
import Bytescript.Bytecode.Listing
import Bytescript.Proofs.Layout
import Bytescript.Proofs.Turn

namespace Bytescript

/-! ### What is read is what is written -/

theorem Opcode.toByte_of_ofByte? {byte : UInt8} {op : Opcode} (h : Opcode.ofByte? byte = some op) :
    op.toByte = byte := by
  have hplaces : ∀ n < 34, ∀ op, all[n]? = some op → op.ctorIdx = n := by decide
  obtain ⟨hlt, -⟩ := Array.getElem?_eq_some_iff.mp h
  rw [toByte, hplaces byte.toNat hlt op h]
  exact UInt8.ofNat_toNat

/-- A number that is read fits its bytes, and they are its bytes. -/
theorem standsAt_of_bigEndianAt? {bytes : Array UInt8} {offset width n : Nat}
    (h : bigEndianAt? bytes offset width = some n) :
    StandsAt bytes offset (bigEndian width n) ∧ n < Nat.pow 256 width := by
  induction width generalizing n with
  | zero =>
    cases h
    exact ⟨fun k hk => absurd hk (Nat.not_lt_zero k), Nat.one_pos⟩
  | succ width ih =>
    rw [bigEndianAt?] at h
    obtain ⟨high, hhigh, h⟩ := Option.bind_eq_some_iff.mp h
    obtain ⟨low, hlow, h⟩ := Option.bind_eq_some_iff.mp h
    cases h
    obtain ⟨hstands, hlt⟩ := ih hhigh
    -- the byte read last is the low one
    have hbyte : low.toNat < 256 := low.toNat_lt
    have hdiv : (256 * high + low.toNat) / 256 = high := by omega
    have hmod : (256 * high + low.toNat).toUInt8 = low := by
      apply UInt8.toNat.inj
      show (256 * high + low.toNat) % 256 = low.toNat
      omega
    constructor
    · rw [bigEndian_succ, hdiv, hmod, StandsAt.append_iff, length_bigEndian]
      refine ⟨hstands, fun k hk => ?_⟩
      obtain rfl : k = 0 := Nat.lt_one_iff.mp hk
      exact hlow
    · have hpow : Nat.pow 256 (width + 1) = Nat.pow 256 width * 256 := rfl
      omega

namespace Instruction

/-- Operands that are read fit, and their bytes stand where they are read. -/
theorem standsAt_of_operandsAt? {bytes : Array UInt8} {widths operands : List Nat} {offset : Nat}
    (h : operandsAt? bytes widths offset = some operands) :
    StandsAt bytes offset (encodeOperands widths operands) ∧
      List.Forall₂ (fun width operand => operand < Nat.pow 256 width) widths operands := by
  induction widths generalizing offset operands with
  | nil =>
    cases h
    exact ⟨fun k hk => absurd hk (Nat.not_lt_zero k), .nil⟩
  | cons width widths ih =>
    rw [operandsAt?] at h
    obtain ⟨operand, hoperand, h⟩ := Option.bind_eq_some_iff.mp h
    obtain ⟨rest, hrest, h⟩ := Option.bind_eq_some_iff.mp h
    cases h
    obtain ⟨hfirst, hlt⟩ := standsAt_of_bigEndianAt? hoperand
    obtain ⟨hothers, hfit⟩ := ih hrest
    refine ⟨?_, .cons hlt hfit⟩
    rw [encodeOperands, StandsAt.append_iff, length_bigEndian]
    exact ⟨hfirst, hothers⟩

/-- An instruction is read where its bytes stand, and only there. -/
theorem decodeAt_eq_ok_iff {bytes : Array UInt8} {offset : Nat} {i : Instruction} :
    decodeAt bytes offset = some (.ok i) ↔ i.Fits ∧ StandsAt bytes offset i.encode := by
  constructor
  · intro h
    obtain ⟨byte, hbyte, hopcode, hoperands⟩ := exists_of_decodeAt h
    obtain ⟨hstands, hfit⟩ := standsAt_of_operandsAt? hoperands
    refine ⟨hfit, ?_⟩
    have hfirst : StandsAt bytes offset [i.opcode.toByte] := by
      intro k hk
      obtain rfl : k = 0 := Nat.lt_one_iff.mp hk
      rw [Opcode.toByte_of_ofByte? hopcode]
      exact hbyte
    exact StandsAt.append_iff.mpr ⟨hfirst, hstands⟩
  · rintro ⟨hfit, hstands⟩
    exact decodeAt_encode hfit hstands

/-- The bytes of a stream of instructions. -/
def encodeStream (is : List Instruction) : List UInt8 :=
  is.flatMap encode

/-- Instructions with their offsets, when the first one stands at `offset`: each further one stands
behind the whole width of the one before. -/
def placed : (offset : Nat) → List Instruction → List (Nat × Instruction)
  | _, [] => []
  | offset, i :: rest => (offset, i) :: placed (offset + i.opcode.width) rest

theorem encodeStream_cons (i : Instruction) (rest : List Instruction) :
    encodeStream (i :: rest) = i.encode ++ encodeStream rest := List.flatMap_cons

end Instruction

/-! ### Listings -/

/-- Where a line was read. -/
def ListingLine.offset : ListingLine → Nat
  | instruction offset _ => offset
  | fault offset _ => offset

namespace Listing

/-- The lines of a buffer from an offset on: an instruction is followed by what comes behind it, a
byte that is no opcode by what comes next, and an instruction that is cut off by nothing. -/
inductive Walk (bytes : Array UInt8) : (offset : Nat) → List ListingLine → Prop where
  | done {offset : Nat} : Instruction.decodeAt bytes offset = none → Walk bytes offset []
  | instruction {offset : Nat} {i : Instruction} {lines : List ListingLine} :
      Instruction.decodeAt bytes offset = some (.ok i) →
      Walk bytes (offset + i.opcode.width) lines →
      Walk bytes offset (.instruction offset i :: lines)
  | unknown {offset : Nat} {byte : UInt8} {lines : List ListingLine} :
      Instruction.decodeAt bytes offset = some (.error (.unknownOpcode byte)) →
      Walk bytes (offset + 1) lines →
      Walk bytes offset (.fault offset (.unknownOpcode byte) :: lines)
  | truncated {offset : Nat} {opcode : Opcode} :
      Instruction.decodeAt bytes offset = some (.error (.truncatedOperands opcode)) →
      Walk bytes offset [.fault offset (.truncatedOperands opcode)]

section

variable {bytes : Array UInt8} {offset steps : Nat} {walked walked' : List ListingLine}
  {before : Array ListingLine}

/-- Reading comes to an end; it takes no more steps than there are bytes left. -/
theorem exists_walk (hsteps : bytes.size ≤ offset + steps) :
    ∃ walked, Walk bytes offset walked ∧ walked.length ≤ steps := by
  induction steps generalizing offset with
  | zero =>
    have hnone : Instruction.decodeAt bytes offset = none := by
      rw [Instruction.decodeAt, Array.getElem?_eq_none (by omega), Option.map_none]
    exact ⟨[], .done hnone, Nat.le_refl _⟩
  | succ steps ih =>
    rcases hdecode : Instruction.decodeAt bytes offset with _ | (byte | opcode) | i
    · exact ⟨[], .done hdecode, Nat.zero_le _⟩
    · have hnext : bytes.size ≤ offset + 1 + steps := by omega
      obtain ⟨walked, hwalk, hlength⟩ := ih hnext
      exact ⟨_, .unknown hdecode hwalk, Nat.succ_le_succ hlength⟩
    · exact ⟨_, .truncated hdecode, Nat.succ_le_succ (Nat.zero_le _)⟩
    · have hwidth := Opcode.width_pos i.opcode
      have hnext : bytes.size ≤ offset + i.opcode.width + steps := by omega
      obtain ⟨walked, hwalk, hlength⟩ := ih hnext
      exact ⟨_, .instruction hdecode hwalk, Nat.succ_le_succ hlength⟩

namespace Walk

/-- More steps do not change what is listed. -/
theorem linesFrom_eq (h : Walk bytes offset walked) (hsteps : walked.length ≤ steps) :
    (linesFrom bytes steps offset before).toList = before.toList ++ walked := by
  induction h generalizing steps before with
  | done hdecode => cases steps <;> simp [linesFrom, hdecode]
  | instruction hdecode _ ih | unknown hdecode _ ih =>
    obtain ⟨steps, rfl⟩ : ∃ n, steps = n + 1 := ⟨steps - 1, by simp at hsteps; omega⟩
    rw [linesFrom, hdecode]
    simp [ih (Nat.le_of_succ_le_succ hsteps)]
  | truncated hdecode =>
    obtain ⟨steps, rfl⟩ : ∃ n, steps = n + 1 := ⟨steps - 1, by simp at hsteps; omega⟩
    rw [linesFrom, hdecode]
    simp

/-- There is one way to go on from each offset. -/
theorem unique (h : Walk bytes offset walked) (h' : Walk bytes offset walked') :
    walked = walked' := by
  have heq := @linesFrom_eq bytes offset (max walked.length walked'.length) walked #[] h
    (Nat.le_max_left ..)
  rw [h'.linesFrom_eq (Nat.le_max_right ..)] at heq
  exact heq.symm

/-- Reading goes forward. -/
theorem offset_le (h : Walk bytes offset walked) : ∀ line ∈ walked, offset ≤ line.offset := by
  induction h with
  | done => simp
  | instruction _ _ ih | unknown _ _ ih =>
    intro line hline
    rcases List.mem_cons.mp hline with rfl | hline
    · exact Nat.le_refl _
    · have := ih line hline
      omega
  | truncated =>
    intro line hline
    rw [List.mem_singleton.mp hline]
    exact Nat.le_refl _

theorem pairwise_lt (h : Walk bytes offset walked) :
    walked.Pairwise fun line next => line.offset < next.offset := by
  induction h with
  | done => exact .nil
  | @instruction offset i rest _ hrest ih =>
    refine .cons (fun line hline => ?_) ih
    have hle := hrest.offset_le line hline
    have hwidth := Opcode.width_pos i.opcode
    show offset < line.offset
    omega
  | unknown _ hrest ih => exact .cons (fun line hline => hrest.offset_le line hline) ih
  | truncated => exact .cons (by simp) .nil

/-- Only instructions that are read are listed. -/
theorem decodeAt_of_mem (h : Walk bytes offset walked) {place : Nat} {i : Instruction}
    (hmem : .instruction place i ∈ walked) : Instruction.decodeAt bytes place = some (.ok i) := by
  induction h with
  | done => cases hmem
  | instruction hdecode _ ih =>
    rcases List.mem_cons.mp hmem with heq | hmem
    · cases heq
      exact hdecode
    · exact ih hmem
  | unknown _ _ ih =>
    rcases List.mem_cons.mp hmem with heq | hmem
    · cases heq
    · exact ih hmem
  | truncated =>
    rcases List.mem_cons.mp hmem with heq | hmem
    · cases heq
    · cases hmem

end Walk

/-- A listing is never cut short by its bound on the number of steps. -/
theorem walk_lines (bytes : Array UInt8) : Walk bytes 0 (lines bytes) := by
  have hsteps : bytes.size ≤ 0 + bytes.size := Nat.le_of_eq (Nat.zero_add _).symm
  obtain ⟨walked, hwalk, hlength⟩ := exists_walk hsteps
  rwa [lines, hwalk.linesFrom_eq hlength]

/-- Where the bytes of a stream stand up to the end, the stream is listed. -/
theorem walk_placed {is : List Instruction} (hfit : ∀ i ∈ is, i.Fits)
    (hstands : StandsAt bytes offset (Instruction.encodeStream is))
    (hend : bytes.size = offset + (Instruction.encodeStream is).length) :
    Walk bytes offset ((Instruction.placed offset is).map fun p => .instruction p.1 p.2) := by
  induction is generalizing offset with
  | nil =>
    have hle : bytes.size ≤ offset := Nat.le_of_eq hend
    refine .done ?_
    rw [Instruction.decodeAt, Array.getElem?_eq_none hle, Option.map_none]
  | cons i rest ih =>
    rw [Instruction.encodeStream_cons, StandsAt.append_iff, Instruction.length_encode] at hstands
    rw [Instruction.encodeStream_cons, List.length_append, Instruction.length_encode] at hend
    have hfirst := Instruction.decodeAt_encode (hfit i List.mem_cons_self) hstands.1
    exact .instruction hfirst (ih (fun j hj => hfit j (List.mem_cons_of_mem i hj)) hstands.2
      (hend.trans (Nat.add_assoc ..).symm))

end

end Listing

/-! ### Fetching -/

namespace Machine

variable {S V : Type}

/-- Reads instructions one after another, each with the pointer where it is read. -/
def fetchMany : (count : Nat) → MachineM S V (List (Nat × Instruction))
  | 0 => return []
  | count + 1 => do
    let frame ← currentFrame
    let i ← fetch
    let rest ← fetchMany count
    return (frame.ip, i) :: rest

theorem goTo_goTo (m : Machine S V) (a b : Nat) : (m.goTo a).goTo b = m.goTo b := by
  obtain ⟨_, _, _, ⟨_ | _, _, _⟩, _⟩ := m <;> rfl

theorem goTo_self {m : Machine S V} {frame : Frame V} {callers : List (Frame V)}
    (hframes : m.frames = frame :: callers) : m.goTo frame.ip = m := by
  obtain ⟨_, _, _, ⟨_ | _, _, _⟩, _⟩ := m
  · cases hframes
  · cases hframes
    rfl

/-- A machine reads the stream that stands at its pointer and moves behind it. -/
theorem exec_fetchMany {is : List Instruction} (hfit : ∀ i ∈ is, i.Fits) {m : Machine S V}
    {frame : Frame V} {callers : List (Frame V)} (hframes : m.frames = frame :: callers)
    (hstands : StandsAt frame.code.bytes frame.ip (Instruction.encodeStream is)) :
    exec (fetchMany is.length) m = (.ok (Instruction.placed frame.ip is),
      m.goTo (frame.ip + (Instruction.encodeStream is).length)) := by
  induction is generalizing m frame with
  | nil =>
    show (Except.ok [], m) = (Except.ok [], m.goTo frame.ip)
    rw [goTo_self hframes]
  | cons i rest ih =>
    rw [Instruction.encodeStream_cons, StandsAt.append_iff, Instruction.length_encode] at hstands
    have hfirst := Instruction.decodeAt_encode (hfit i List.mem_cons_self) hstands.1
    have hfetch := exec_fetch ⟨frame, callers, hframes, hfirst, rfl⟩
    have hframes' : (m.goTo (frame.ip + i.opcode.width)).frames =
        { frame with ip := frame.ip + i.opcode.width } :: callers := by
      rw [frames_goTo, hframes]
      rfl
    have hrest := ih (fun j hj => hfit j (List.mem_cons_of_mem i hj)) hframes' hstands.2
    rw [List.length_cons, fetchMany, exec_bind, exec_currentFrame hframes]
    dsimp only
    rw [exec_bind, hfetch]
    dsimp only
    rw [exec_bind, hrest]
    dsimp only
    rw [exec_pure, goTo_goTo, Instruction.encodeStream_cons, List.length_append,
      Instruction.length_encode, Nat.add_assoc]
    rfl

end Machine

/-- Both readers give back a stream of instructions whose operands fit, at the running sums of their
widths. On any bytes a listing comes to an end, at increasing offsets, and the bytes of every
instruction it lists stand where it is listed. -/
theorem readers_invert_encoding :
    (∀ is : List Instruction, (∀ i ∈ is, i.Fits) →
      Listing.lines (Instruction.encodeStream is).toArray =
        (Instruction.placed 0 is).map (fun p => .instruction p.1 p.2) ∧
      ∀ {S V : Type} (m : Machine S V) (frame : Frame V) (callers : List (Frame V)),
        m.frames = frame :: callers → frame.ip = 0 →
        frame.code.bytes = (Instruction.encodeStream is).toArray →
        Machine.exec (Machine.fetchMany is.length) m =
          (.ok (Instruction.placed 0 is), m.goTo frame.code.bytes.size)) ∧
    ∀ bytes : Array UInt8, Listing.Walk bytes 0 (Listing.lines bytes) ∧
      (Listing.lines bytes).Pairwise (fun line next => line.offset < next.offset) ∧
      ∀ offset i, .instruction offset i ∈ Listing.lines bytes → StandsAt bytes offset i.encode := by
  constructor
  · intro is hfit
    have hstands : StandsAt (Instruction.encodeStream is).toArray 0 (Instruction.encodeStream is) :=
      fun k _ => by simp
    constructor
    · exact (Listing.walk_lines _).unique (Listing.walk_placed hfit hstands (by simp))
    · intro S V m frame callers hframes hip hbytes
      rw [← hbytes, ← hip] at hstands
      rw [Machine.exec_fetchMany hfit hframes hstands, hip, hbytes]
      simp
  · intro bytes
    have hwalk := Listing.walk_lines bytes
    refine ⟨hwalk, hwalk.pairwise_lt, fun offset i hmem => ?_⟩
    exact (Instruction.decodeAt_eq_ok_iff.mp (hwalk.decodeAt_of_mem hmem)).2

/-- Instructions of all lengths. -/
def mixedStream : List Instruction :=
  [⟨.closure, [65534, 255]⟩, ⟨.getLocal, [7]⟩, ⟨.add, []⟩, ⟨.jump, [256]⟩]

/-- A machine about to run them. -/
def mixedMachine : Machine Unit Unit :=
  let code : Code := { bytes := (Instruction.encodeStream mixedStream).toArray }
  { config := {}, constants := #[], calls := { frames := [{ closure := ⟨0, { code }, []⟩ }] }
    host := () }

theorem readers_invert_encoding_mixedStream :
    (∀ i ∈ mixedStream, i.Fits) ∧
      Listing.lines (Instruction.encodeStream mixedStream).toArray =
        (Instruction.placed 0 mixedStream).map (fun p => .instruction p.1 p.2) ∧
      Machine.exec (Machine.fetchMany 4) mixedMachine =
        (.ok (Instruction.placed 0 mixedStream), mixedMachine.goTo 10) ∧
      .instruction 1 ⟨.add, []⟩ ∈ Listing.lines #[255, 2, 32, 0] ∧
      StandsAt #[255, 2, 32, 0] 1 (Instruction.encode ⟨.add, []⟩) := by
  have hfit : ∀ i ∈ mixedStream, i.Fits := by
    intro i hi
    simp only [mixedStream, List.mem_cons, List.not_mem_nil, or_false] at hi
    rcases hi with rfl | rfl | rfl | rfl
    · exact .cons (by decide) (.cons (by decide) .nil)
    · exact .cons (by decide) .nil
    · exact .nil
    · exact .cons (by decide) .nil
  have hlisted : .instruction 1 ⟨.add, []⟩ ∈ Listing.lines #[255, 2, 32, 0] := by decide
  obtain ⟨hstreams, hbuffers⟩ := readers_invert_encoding
  obtain ⟨hlines, hfetches⟩ := hstreams mixedStream hfit
  exact ⟨hfit, hlines, hfetches mixedMachine _ [] rfl rfl rfl, hlisted,
    (hbuffers #[255, 2, 32, 0]).2.2 1 _ hlisted⟩

end Bytescript
