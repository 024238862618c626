/-!
Addressing modes: how an instruction's operand bytes designate the value or the cell it works on.
-/

namespace Mos6502

inductive Mode where
  | implicit
  | immediate
  | zeroPage
  | zeroPageX
  | zeroPageY
  | absolute
  | absoluteX
  | absoluteY
  | indirectX
  | indirectY
  deriving DecidableEq, Repr

namespace Mode

/-- The number of bytes that follow the opcode. -/
def operandBytes : Mode → Nat
  | implicit => 0
  | absolute | absoluteX | absoluteY => 2
  | immediate | zeroPage | zeroPageX | zeroPageY | indirectX | indirectY => 1

/-- The name that messages give a mode. -/
def name : Mode → String
  | implicit => "Implicit"
  | immediate => "Immediate"
  | zeroPage => "ZeroPage"
  | zeroPageX => "ZeroPageX"
  | zeroPageY => "ZeroPageY"
  | absolute => "Absolute"
  | absoluteX => "AbsoluteX"
  | absoluteY => "AbsoluteY"
  | indirectX => "IndirectX"
  | indirectY => "IndirectY"

end Mode

end Mos6502
