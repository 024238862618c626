import Mos6502.Cpu.Fetch
/-!
Effective addresses. Each addressing mode that designates a cell is a processor program that
consumes the operand bytes and ends with the cell's address, charging what the address costs.
-/

namespace Mos6502

/-- An indexed address lies far enough above its base to cost a cycle. The addresses are compared
as they stand, so a sum that wraps past the last address never counts as a crossing. -/
def PageCrossed (base effective : UInt16) : Prop := base.toNat + 0xFF ≤ effective.toNat

instance (base effective : UInt16) : Decidable (PageCrossed base effective) :=
  inferInstanceAs (Decidable (_ ≤ _))

/-- When adding an index to a word costs a cycle: a load pays on a page crossing only, a store
always. -/
inductive IndexCharge where
  | onCrossing
  | always
  deriving DecidableEq, Repr

namespace CpuM

/-- A zero-page address plus an index, which stays in the zero page. -/
def zeroPageIndexed (index : UInt8) : CpuM UInt8 := do
  let base ← fetchByte
  tick
  return base + index

/-- The word at a zero-page pointer. Its high byte is in the zero page too. -/
def readPointer (pointer : UInt8) : CpuM UInt16 := do
  let low ← readByte pointer.toUInt16
  let high ← readByte (pointer + 1).toUInt16
  return Word.ofBytes low high

def indexed (charge : IndexCharge) (base : UInt16) (index : UInt8) : CpuM UInt16 := do
  let effective := base + index.toUInt16
  if charge = .always ∨ PageCrossed base effective then tick
  return effective

end CpuM

namespace Mode

open CpuM

/-- How a mode finds the cell it designates, or `none` for a mode that designates none. -/
def address? (charge : IndexCharge) : Mode → Option (CpuM UInt16)
  | implicit | immediate => none
  | zeroPage => some do return (← fetchByte).toUInt16
  | zeroPageX => some do return (← zeroPageIndexed (← get).x).toUInt16
  | zeroPageY => some do return (← zeroPageIndexed (← get).y).toUInt16
  | absolute => some fetchWord
  | absoluteX => some do indexed charge (← fetchWord) (← get).x
  | absoluteY => some do indexed charge (← fetchWord) (← get).y
  | indirectX => some do readPointer (← zeroPageIndexed (← get).x)
  | indirectY => some do indexed charge (← readPointer (← fetchByte)) (← get).y

/-- How a mode finds the byte that a load takes. -/
def operand? : Mode → Option (CpuM UInt8)
  | immediate => some fetchByte
  | mode => (mode.address? .onCrossing).map fun address => address >>= readByte

end Mode

end Mos6502
