import Mos6502.Hex
import Mos6502.Memory.Basic
/-!
Hex dumps. A window of memory is cut into rows of up to 32 cells; each row is a line with the
address of its first cell in upper case and the cells in lower case.
-/

namespace Mos6502

structure DumpRow where
  address : UInt16
  cells : List UInt8
  deriving DecidableEq, Repr

namespace DumpRow

/-- The number of cells in a full row. -/
def width : Nat := 32

/-- The rows of cells that begin at an address. -/
def ofCells (address : UInt16) : List UInt8 → List DumpRow
  | [] => []
  | c :: cells =>
    ⟨address, (c :: cells).take width⟩ ::
      ofCells (address + .ofNat width) ((c :: cells).drop width)
termination_by cells => cells.length
decreasing_by
  simp only [width, List.length_drop, List.length_cons]
  omega

/-- The line of a row, with its end. -/
def line (r : DumpRow) : List Char :=
  Hex.word .upper r.address ++ ':' ::
    (r.cells.flatMap fun c => ' ' :: Hex.byte .lower c) ++ ['\n']

end DumpRow

/-- The text of cells that begin at an address. -/
def hexDump (start : UInt16) (cells : List UInt8) : String :=
  String.ofList ((DumpRow.ofCells start cells).flatMap DumpRow.line)

namespace Memory

/-- The dump of at most `length` cells; the window ends with the last cell. -/
def dumpRange (m : Memory) (start : UInt16) (length : Nat) : String :=
  hexDump start (m.window start length)

/-- The dump of all cells. -/
def dump (m : Memory) : String := hexDump 0 m.cells.toList

end Memory

end Mos6502
