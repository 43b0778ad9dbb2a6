/-
Readable listings of code.

A listing goes through a buffer from its start. Each instruction takes one line; a byte that is
no opcode is reported and skipped; an instruction cut off by the end of the buffer is reported
and ends the listing.
-/
import Bytescript.Bytecode.Program

namespace Bytescript

/-- One line of a listing. -/
inductive ListingLine where
  | instruction (offset : Nat) (instruction : Instruction)
  | fault (offset : Nat) (fault : Instruction.Fault)
  deriving DecidableEq, Repr

namespace Listing

/-- An offset with at least four digits. -/
def renderOffset (offset : Nat) : String :=
  let digits := Nat.repr offset
  String.ofList (List.replicate (4 - digits.length) '0') ++ digits

/-- The text of a line. -/
def renderLine : ListingLine → String
  | .instruction offset i =>
    renderOffset offset ++ " " ++ i.opcode.mnemonic ++
      String.join (i.operands.map fun operand => " " ++ Nat.repr operand) ++ "\n"
  | .fault offset (.unknownOpcode byte) =>
    renderOffset offset ++ " ERROR: unknown opcode " ++ Nat.repr byte.toNat ++ "\n"
  | .fault offset (.truncatedOperands opcode) =>
    renderOffset offset ++ " ERROR: truncated operands for " ++ opcode.mnemonic ++ "\n"

/-- The lines from an offset on, after those in `found`. Every line but the last moves on by at
least one byte, so as many steps as there are bytes suffice. -/
def linesFrom (bytes : Array UInt8) :
    (steps : Nat) → (offset : Nat) → Array ListingLine → Array ListingLine
  | 0, _, found => found
  | steps + 1, offset, found =>
    match Instruction.decodeAt bytes offset with
    | none => found
    | some (.ok i) =>
      linesFrom bytes steps (offset + i.opcode.width) (found.push (.instruction offset i))
    | some (.error (.unknownOpcode byte)) =>
      linesFrom bytes steps (offset + 1) (found.push (.fault offset (.unknownOpcode byte)))
    | some (.error (.truncatedOperands opcode)) =>
      found.push (.fault offset (.truncatedOperands opcode))

/-- The lines of a buffer. -/
def lines (bytes : Array UInt8) : List ListingLine :=
  (linesFrom bytes bytes.size 0 #[]).toList

/-- The listing of a buffer. -/
def render (bytes : Array UInt8) : String :=
  String.join ((lines bytes).map renderLine)

end Listing

/-- The listing of a program and of every function among its constants. -/
def Program.disassemble (p : Program) (title : String) : String :=
  let main :=
    s!"--- {title} ---\n{p.code.bytes.size} bytes, {p.constants.size} constants\n" ++
      Listing.render p.code.bytes
  let functions := p.constants.toList.mapIdx fun i constant =>
    match constant with
    | .function f =>
      s!"\n--- {f.render} (constant {i}) ---\n{f.locals} locals, {f.params} parameters\n" ++
        Listing.render f.code.bytes
    | _ => ""
  main ++ String.join functions

end Bytescript
