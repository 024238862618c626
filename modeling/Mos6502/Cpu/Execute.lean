import Mos6502.Cpu.Address
import Mos6502.Fault
/-!
Instructions as processor programs. Decoding comes first and is all that can fail: a decoded
program runs to its end on every bus, so an instruction that fails has changed nothing.
-/

namespace Mos6502

namespace CpuM

def load (r : Register) (operand : CpuM UInt8) : CpuM Unit := do
  let v ← operand
  modify (·.load r v)

def store (r : Register) (address : CpuM UInt16) : CpuM Unit := do
  let v := (← get).register r
  writeByte (← address) v

/-- Keeps the address of the call's last byte at the stack pointer, taken as a plain address, and
continues at the target. The target is fetched before the stack is written. -/
def jsr : CpuM Unit := do
  let target ← fetchWord
  let cpu ← get
  writeWord cpu.sp.toUInt16 (cpu.pc - 1)
  tick
  set { cpu with sp := cpu.sp - 2, pc := target }

/-- Continues after the call whose last byte's address is on top of the stack. -/
def rts : CpuM Unit := do
  modify fun cpu => { cpu with sp := cpu.sp + 2 }
  tick
  let last ← readWord (← get).sp.toUInt16
  tick
  tick
  modify fun cpu => { cpu with pc := last + 1 }

end CpuM

/-- What an instruction does after its opcode, or `none` if it has no such mode. -/
def Instruction.program? (mode : Mode) : Instruction → Option (CpuM Unit)
  | load r => mode.operand?.map (CpuM.load r)
  | store r => (mode.address? .always).map (CpuM.store r)
  | jsr => if mode = .absolute then some CpuM.jsr else none
  | rts => if mode = .implicit then some CpuM.rts else none
  | nop => if mode = .implicit then some CpuM.tick else none

/-- The program of the opcode found at an address. -/
def decode (opcode : UInt8) (address : UInt16) : Except Fault (CpuM Unit) :=
  match Entry.ofOpcode? opcode with
  | none => .error (.unknownOpcode opcode address)
  | some e =>
    match e.instruction.program? e.mode with
    | none => .error (.unsupportedMode opcode e.mode)
    | some program => .ok program

/-- One instruction: reads the opcode at the program counter and, if it can be decoded, steps over
it and runs its program. -/
def CpuM.instruction : CpuM (Except Fault Unit) := do
  let address := (← get).pc
  let opcode ← readByte address
  match decode opcode address with
  | .error fault => return .error fault
  | .ok program =>
    modify fun cpu => { cpu with pc := address + 1 }
    program
    return .ok ()

end Mos6502
