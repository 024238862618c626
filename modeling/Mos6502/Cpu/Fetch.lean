import Mos6502.Bus.Program
import Mos6502.Cpu.Basic
import Mos6502.Word
/-!
Processor programs: bus programs that also have the registers at hand. The ones here are the
pieces of every instruction: fetching at the program counter and moving bytes and words.
-/

namespace Mos6502

abbrev CpuM := StateT Cpu BusM

namespace CpuM

/-- A cycle of work inside the processor. -/
def tick : CpuM Unit := BusM.tick

def readByte (address : UInt16) : CpuM UInt8 := BusM.readByte address

def writeByte (address : UInt16) (v : UInt8) : CpuM Unit := BusM.writeByte address v

/-- The word at an address and the next one; above the last address comes address 0. -/
def readWord (address : UInt16) : CpuM UInt16 := do
  let low ← readByte address
  let high ← readByte (address + 1)
  return Word.ofBytes low high

def writeWord (address : UInt16) (w : UInt16) : CpuM Unit := do
  writeByte address (Word.low w)
  writeByte (address + 1) (Word.high w)

/-- Reads the byte at the program counter and steps over it. -/
def fetchByte : CpuM UInt8 := do
  let v ← readByte (← get).pc
  modify fun cpu => { cpu with pc := cpu.pc + 1 }
  return v

def fetchWord : CpuM UInt16 := do
  let low ← fetchByte
  let high ← fetchByte
  return Word.ofBytes low high

end CpuM

end Mos6502
