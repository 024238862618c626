import Mos6502.Memory.Basic
/-!
Memory whose upper half is read-only on the bus. The contents of that half survive a reset.
-/

namespace Mos6502

structure RomMemory where
  memory : Memory
  deriving DecidableEq

namespace RomMemory

/-- The first read-only address. -/
def romStart : UInt16 := 0x8000

instance : Bus RomMemory where
  clear r := ⟨.ofFn fun address => if address < romStart then 0 else r.memory.read address⟩
  read r address := r.memory.read address
  write r address v := if address < romStart then ⟨r.memory.write address v⟩ else r

theorem read_write (r : RomMemory) (a b : UInt16) (v : UInt8) :
    Bus.read (Bus.write r a v) b = if a < romStart ∧ a = b then v else Bus.read r b := by
  by_cases h : a < romStart
  · simp only [Bus.read, Bus.write, h, if_true, true_and, Memory.read_write]
  · simp only [Bus.read, Bus.write, h, if_false, false_and]

theorem read_clear (r : RomMemory) (a : UInt16) :
    Bus.read (Bus.clear r) a = if a < romStart then 0 else Bus.read r a := by
  simp only [Bus.read, Bus.clear, Memory.read_ofFn]

end RomMemory

end Mos6502
