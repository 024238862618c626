import Mos6502.Hex
import Mos6502.Mode
/-!
Why an instruction cannot run, and the text that tells of it. Both causes carry the opcode.
-/

namespace Mos6502

inductive Fault where
  /-- The byte at `address` is no opcode of the registry. -/
  | unknownOpcode (opcode : UInt8) (address : UInt16)
  /-- The opcode's instruction has no such addressing mode. -/
  | unsupportedMode (opcode : UInt8) (mode : Mode)
  deriving DecidableEq, Repr

namespace Fault

def opcode : Fault → UInt8
  | unknownOpcode opcode _ => opcode
  | unsupportedMode opcode _ => opcode

/-- Opcodes have two upper-case digits and addresses four. -/
def message : Fault → String
  | unknownOpcode opcode address =>
    "Instruction 0x" ++ String.ofList (Hex.byte .upper opcode) ++
      " at 0x" ++ String.ofList (Hex.word .upper address) ++ " is not handled"
  | unsupportedMode opcode mode =>
    "Opcode 0x" ++ String.ofList (Hex.byte .upper opcode) ++
      " does not support addressing mode " ++ mode.name

end Fault

end Mos6502
