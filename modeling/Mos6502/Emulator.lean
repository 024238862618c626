import Mos6502.Machine.Execute
import Mos6502.Memory.Dump
/-!
The emulator as a host program holds it: one machine with plain memory, and errors that a host can
show, a text with the opcode at fault.
-/

namespace Mos6502

structure HostError where
  message : String
  /-- The opcode at fault, if the error comes from running instructions. -/
  opcode : Option UInt8
  deriving DecidableEq, Repr

namespace HostError

def ofMessage (message : String) : HostError := ⟨message, none⟩

def ofFault (fault : Fault) : HostError := ⟨fault.message, some fault.opcode⟩

end HostError

/-- What a host can see of the registers, the flags packed into a byte. -/
structure Readings where
  pc : UInt16
  sp : UInt8
  a : UInt8
  x : UInt8
  y : UInt8
  status : UInt8
  deriving DecidableEq, Repr

def Cpu.readings (cpu : Cpu) : Readings := ⟨cpu.pc, cpu.sp, cpu.a, cpu.x, cpu.y, cpu.status⟩

structure Emulator where
  machine : Machine Memory
  deriving DecidableEq

namespace Emulator

def initial : Emulator := ⟨⟨.initial, .zero⟩⟩

def reset (e : Emulator) : Emulator := ⟨e.machine.reset⟩

def loadProgram (e : Emulator) (start : UInt16) (bytes : List UInt8) : Emulator :=
  ⟨{ e.machine with bus := e.machine.bus.load start bytes }⟩

def execute (e : Emulator) (budget : Int32) : Except HostError Nat × Emulator :=
  match e.machine.execute budget with
  | ⟨value, machine, _⟩ => (value.mapError .ofFault, ⟨machine⟩)

def step (e : Emulator) : Except HostError Nat × Emulator :=
  match e.machine.step with
  | ⟨value, machine, _⟩ => (value.mapError .ofFault, ⟨machine⟩)

def readings (e : Emulator) : Readings := e.machine.cpu.readings

def readMemory (e : Emulator) (address : UInt16) : UInt8 := e.machine.bus.read address

def writeMemory (e : Emulator) (address : UInt16) (v : UInt8) : Emulator :=
  ⟨{ e.machine with bus := e.machine.bus.write address v }⟩

def dump (e : Emulator) (start : UInt16) (length : Nat) : String :=
  e.machine.bus.dumpRange start length

end Emulator

end Mos6502
