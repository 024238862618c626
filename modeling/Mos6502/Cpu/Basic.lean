import Mos6502.Opcode
/-!
The registers of the processor and its status byte.
-/

namespace Mos6502

/-- The status flags by their usual letters: negative, overflow, break, decimal, interrupt disable,
zero and carry. -/
structure Flags where
  n : Bool := false
  v : Bool := false
  b : Bool := false
  d : Bool := false
  i : Bool := false
  z : Bool := false
  c : Bool := false
  deriving DecidableEq, Repr

namespace Flags

/-- The flags as one byte. Bit 5 belongs to no flag and is always set. -/
def toByte (f : Flags) : UInt8 :=
  (if f.n then 0x80 else 0) ||| (if f.v then 0x40 else 0) ||| 0x20 |||
    (if f.b then 0x10 else 0) ||| (if f.d then 0x08 else 0) ||| (if f.i then 0x04 else 0) |||
    (if f.z then 0x02 else 0) ||| (if f.c then 0x01 else 0)

/-- The flags that a status byte holds, whatever its bit 5. -/
def ofByte (p : UInt8) : Flags where
  n := p &&& 0x80 != 0
  v := p &&& 0x40 != 0
  b := p &&& 0x10 != 0
  d := p &&& 0x08 != 0
  i := p &&& 0x04 != 0
  z := p &&& 0x02 != 0
  c := p &&& 0x01 != 0

@[simp] theorem ofByte_toByte (f : Flags) : ofByte f.toByte = f := by
  obtain ⟨n, v, b, d, i, z, c⟩ := f
  revert n v b d i z c
  decide

theorem toByte_ofByte (p : UInt8) : (ofByte p).toByte = p ||| 0x20 := by
  have h : ∀ n < 256, (ofByte (.ofNat n)).toByte = .ofNat n ||| 0x20 := by decide +kernel
  simpa using h p.toNat p.toNat_lt

end Flags

def resetVector : UInt16 := 0xFFFC

def stackPointerReset : UInt8 := 0xFF

structure Cpu where
  pc : UInt16
  sp : UInt8
  a : UInt8
  x : UInt8
  y : UInt8
  flags : Flags
  deriving DecidableEq, Repr

namespace Cpu

/-- The registers after power-up and after a reset. Execution starts at the reset vector itself. -/
def initial : Cpu where
  pc := resetVector
  sp := stackPointerReset
  a := 0
  x := 0
  y := 0
  flags := {}

def status (cpu : Cpu) : UInt8 := cpu.flags.toByte

def withStatus (cpu : Cpu) (p : UInt8) : Cpu := { cpu with flags := .ofByte p }

def register (cpu : Cpu) : Register → UInt8
  | .a => cpu.a
  | .x => cpu.x
  | .y => cpu.y

def withRegister (cpu : Cpu) (r : Register) (v : UInt8) : Cpu :=
  match r with
  | .a => { cpu with a := v }
  | .x => { cpu with x := v }
  | .y => { cpu with y := v }

/-- Puts a loaded byte into a register; Z and N tell of that byte, and no other flag changes. -/
def load (cpu : Cpu) (r : Register) (v : UInt8) : Cpu :=
  { cpu.withRegister r v with
    flags := { cpu.flags with z := v == 0, n := v &&& 0x80 != 0 } }

theorem register_load (cpu : Cpu) (r r' : Register) (v : UInt8) :
    (cpu.load r v).register r' = if r = r' then v else cpu.register r' := by
  cases r <;> cases r' <;> rfl

end Cpu

end Mos6502
