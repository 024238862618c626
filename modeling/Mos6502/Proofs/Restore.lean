import Mos6502.Emulator
import Mos6502.Proofs.Loading
import Mos6502.Proofs.Session
/-!
Rebuilding a machine. All that a machine is can be seen from outside: five registers, the status
byte and the cells. Putting these into any other machine makes the two equal, whatever that machine
was before and wherever the copy of the cells begins.
-/

namespace Mos6502

namespace Flags

/-- Bit 5 of a status byte makes no difference to the flags, and every other bit does. -/
theorem ofByte_eq_iff {p q : UInt8} : ofByte p = ofByte q ↔ p ||| 0x20 = q ||| 0x20 := by
  constructor
  · intro h
    rw [← toByte_ofByte, h, toByte_ofByte]
  · intro h
    rw [← ofByte_toByte (ofByte p), toByte_ofByte, h, ← toByte_ofByte, ofByte_toByte]

end Flags

namespace Cpu

/-- Sets the registers to readings, the flags by way of the status byte. -/
def withReadings (cpu : Cpu) (r : Readings) : Cpu :=
  ({ cpu with pc := r.pc, sp := r.sp, a := r.a, x := r.x, y := r.y } : Cpu).withStatus r.status

theorem status_withStatus (cpu : Cpu) (p : UInt8) : (cpu.withStatus p).status = p ||| 0x20 :=
  Flags.toByte_ofByte p

theorem withStatus_eq_iff {cpu : Cpu} {p q : UInt8} :
    cpu.withStatus p = cpu.withStatus q ↔ p ||| 0x20 = q ||| 0x20 := by
  rw [← Flags.ofByte_eq_iff]
  constructor
  · exact congrArg Cpu.flags
  · intro h
    rw [withStatus, withStatus, h]

theorem withReadings_readings (cpu source : Cpu) : cpu.withReadings source.readings = source := by
  simp only [withReadings, withStatus, readings, status, Flags.ofByte_toByte]

end Cpu

namespace Machine

/-- Puts readings into the registers and bytes into memory. -/
def restore (m : Machine Memory) (r : Readings) (start : UInt16) (bytes : List UInt8) :
    Machine Memory := ⟨m.cpu.withReadings r, m.bus.load start bytes⟩

theorem restore_view (target source : Machine Memory) (start : UInt16) :
    target.restore source.cpu.readings start (source.bus.cellsFrom start Memory.size) = source := by
  rw [restore, Cpu.withReadings_readings, Memory.load_cellsFrom]

/-- What becomes of a machine when the view of another is put into it, all cells in order from
`start` round to the one before it. -/
structure RebuiltFrom (target source : Machine Memory) (start : UInt16) : Prop where
  cpu : target.cpu.withReadings source.cpu.readings = source.cpu
  memory : target.bus.load start (source.bus.cellsFrom start Memory.size) = source.bus
  sessions : ∀ requests,
    (target.restore source.cpu.readings start
      (source.bus.cellsFrom start Memory.size)).serve requests = source.serve requests
  /-- A status byte is read back with bit 5 set. -/
  status : ∀ p, (target.cpu.withStatus p).status = p ||| 0x20
  /-- Status bytes have the same effect if they agree up to bit 5, and only then. -/
  same_status : ∀ p q,
    target.cpu.withStatus p = target.cpu.withStatus q ↔ p ||| 0x20 = q ||| 0x20

theorem rebuilt_from_view (target source : Machine Memory) (start : UInt16) :
    RebuiltFrom target source start := by
  constructor
  · exact target.cpu.withReadings_readings source.cpu
  · exact target.bus.load_cellsFrom source.bus start
  · intro requests
    rw [restore_view]
  · exact target.cpu.status_withStatus
  · intro p q
    exact Cpu.withStatus_eq_iff

end Machine

end Mos6502
