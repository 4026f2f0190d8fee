import MicroAsm.Instruction.Decoding
import MicroAsm.Object.Basic

/-!
# Disassembly

The instructions in the segments of an image. A byte that starts no instruction is shown as data.
-/

namespace MicroAsm

namespace Disassembly

/-- Splits bytes into instructions with their texts. -/
def split (cpu : Cpu) : List UInt8 → List (List UInt8 × String)
  | [] => []
  | b :: rest =>
    match cpu.decode (b :: rest) with
    | some d => (b :: rest.take (d.size - 1), d.text) :: split cpu (rest.drop (d.size - 1))
    | none => ([b], "DB " ++ Text.hexLiteral 2 b.toUInt16) :: split cpu rest
termination_by bytes => bytes.length
decreasing_by all_goals simp [List.length_drop]; try omega

/-- The text filled up with blanks behind. -/
def padRight (width : Nat) (s : String) : String :=
  s ++ String.ofList (List.replicate (width - s.length) ' ')

/-- A row: address, bytes and text of an instruction. -/
def row (address : UInt16) (bytes : List UInt8) (text : String) : String :=
  Text.hex 4 address ++ "  " ++ padRight 10 (" ".intercalate (bytes.map Text.hexByte)) ++ text ++
    "\n"

/-- The rows of instructions that start at an address. -/
def rows : UInt16 → List (List UInt8 × String) → String
  | _, [] => ""
  | address, (bytes, text) :: rest =>
    row address bytes text ++ rows (address + UInt16.ofNat bytes.length) rest

/-- A segment with its name and address in front. -/
def segmentText (cpu : Cpu) (s : Segment) : String :=
  "; segment " ++ s.name ++ " at " ++ Text.hex 4 s.offset ++ "\n" ++
    rows s.offset (split cpu s.bytes.toList)

/-- The segments of an image with its name in front. -/
def text (cpu : Cpu) (o : ObjectCode) : String :=
  "; module " ++ o.moduleName ++ "\n" ++
    String.join (o.segments.map fun (_, s) => segmentText cpu s)

end Disassembly

end MicroAsm
