import Mos6502.Bus
/-!
Plain memory: 65536 cells, all of them readable and writable. `Memory.read` is the view through
which the operations are described; memories that read alike are equal.
-/

namespace Mos6502

structure Memory where
  cells : Vector UInt8 65536
  deriving DecidableEq

namespace Memory

def size : Nat := 65536

def zero : Memory := ⟨Vector.replicate 65536 0⟩

/-- The memory with the cells that a function gives. -/
def ofFn (f : UInt16 → UInt8) : Memory := ⟨Vector.ofFn fun i => f (.ofNat i)⟩

def read (m : Memory) (address : UInt16) : UInt8 :=
  have := address.toNat_lt
  m.cells[address.toNat]

def write (m : Memory) (address : UInt16) (v : UInt8) : Memory :=
  have := address.toNat_lt
  ⟨m.cells.set address.toNat v⟩

/-- Writes bytes into successive cells. After the last cell comes the first one again, so that of
two bytes for one cell the later stays. -/
def load (m : Memory) (start : UInt16) : List UInt8 → Memory
  | [] => m
  | v :: bytes => (m.write start v).load (start + 1) bytes

/-- The cells from an address on, as many as asked for and there are before the end. -/
def window (m : Memory) (start : UInt16) (length : Nat) : List UInt8 :=
  (m.cells.toList.drop start.toNat).take length

def nonzeroCells (m : Memory) : Nat := m.cells.countP (· != 0)

/-- A one-line account of the memory. -/
def summary (m : Memory) : String :=
  "FlatMemory \x7b size: " ++ toString size ++ ", nonzero_cells: " ++ toString m.nonzeroCells ++
    " \x7d"

instance : Bus Memory where
  clear _ := zero
  read := read
  write := write

@[simp] theorem bus_read (m : Memory) (address : UInt16) : Bus.read m address = m.read address :=
  rfl

@[simp] theorem bus_write (m : Memory) (address : UInt16) (v : UInt8) :
    Bus.write m address v = m.write address v := rfl

@[simp] theorem read_zero (address : UInt16) : zero.read address = 0 := by
  simp [read, zero]

@[simp] theorem read_ofFn (f : UInt16 → UInt8) (address : UInt16) :
    (ofFn f).read address = f address := by
  simp [read, ofFn]

theorem read_write (m : Memory) (a b : UInt16) (v : UInt8) :
    (m.write a v).read b = if a = b then v else m.read b := by
  simp only [read, write, Vector.getElem_set, UInt16.toNat_inj]

theorem ext {m m' : Memory} (h : ∀ address, m.read address = m'.read address) : m = m' := by
  obtain ⟨cells⟩ := m
  obtain ⟨cells'⟩ := m'
  congr 1
  apply Vector.ext
  intro i hi
  have hr := h (.ofNat i)
  simpa [read, Nat.mod_eq_of_lt hi] using hr

theorem length_window (m : Memory) (start : UInt16) (length : Nat) :
    (m.window start length).length = min length (size - start.toNat) := by
  simp [window, size]

end Memory

end Mos6502
