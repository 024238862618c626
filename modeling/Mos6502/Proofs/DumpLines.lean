import Mathlib.Data.List.Forall2
import Mos6502.Memory.Dump
import Mos6502.Proofs.Loading
import Mos6502.Proofs.Numeral
/-!
The lines of a dump. A window of memory is shown in lines of 32 cells, the last one with what is
left over. `DumpRow.Shows` says what a line looks like, in numerals, and `length_ofCells` and
`getElem?_ofCells` which cells are in which line.
-/

namespace Mos6502

namespace Memory

/-- The number of cells of a window, which ends with the last cell of memory. -/
def windowSize (start : UInt16) (length : ℕ) : ℕ := min length (size - start.toNat)

theorem window_eq_cellsFrom (memory : Memory) (start : UInt16) (length : ℕ) :
    memory.window start length = memory.cellsFrom start (windowSize start length) := by
  apply List.ext_getElem?
  intro k
  by_cases hk : k < windowSize start length
  · have hkn : k < min length (65536 - start.toNat) := hk
    have hmod : (start.toNat + k) % 65536 = start.toNat + k := Nat.mod_eq_of_lt (by omega)
    rw [getElem?_cellsFrom _ _ hk, window, List.getElem?_take_of_lt (by omega), List.getElem?_drop,
      List.getElem?_eq_getElem (by simp; omega)]
    simp [read, hmod]
  · rw [List.getElem?_eq_none, List.getElem?_eq_none]
    · rw [length_cellsFrom]
      omega
    · rw [length_window]
      exact Nat.le_of_not_lt hk

end Memory

namespace DumpRow

theorem length_ofCells (address : UInt16) (cells : List UInt8) :
    (ofCells address cells).length = (cells.length + 31) / 32 := by
  fun_induction ofCells address cells with
  | case1 address => rfl
  | case2 address c cells ih =>
    rw [List.length_cons, ih, List.length_drop, List.length_cons, width]
    omega

/-- The rows together have the cells in their order. -/
theorem flatMap_ofCells (address : UInt16) (cells : List UInt8) :
    (ofCells address cells).flatMap DumpRow.cells = cells := by
  fun_induction ofCells address cells with
  | case1 address => rfl
  | case2 address c cells ih => rw [List.flatMap_cons, ih, List.take_append_drop]

theorem getElem?_ofCells {address : UInt16} {cells : List UInt8} {i : ℕ}
    (h : 32 * i < cells.length) : (ofCells address cells)[i]? =
      some ⟨address + .ofNat (32 * i), (cells.drop (32 * i)).take 32⟩ := by
  fun_induction ofCells address cells generalizing i with
  | case1 address => exact absurd h (Nat.not_lt_zero _)
  | case2 address c cells ih =>
    cases i with
    | zero => simp [width]
    | succ i =>
      have hrest : 32 * i < ((c :: cells).drop width).length := by
        rw [List.length_drop, width]
        omega
      rw [List.getElem?_cons_succ, ih hrest, List.drop_drop, UInt16.add_assoc, ← UInt16.ofNat_add,
        width, Nat.mul_succ, Nat.add_comm]

/-- Cells that fill their rows are cut alike whatever comes after them. -/
theorem ofCells_append {address : UInt16} {xs ys : List UInt8} (h : 32 ∣ xs.length) :
    ofCells address (xs ++ ys) =
      ofCells address xs ++ ofCells (address + .ofNat xs.length) ys := by
  fun_induction ofCells address xs with
  | case1 address => simp
  | case2 address c xs ih =>
    have hpos : 0 < (c :: xs).length := Nat.zero_lt_succ _
    have hfull : width ≤ (c :: xs).length := Nat.le_of_dvd hpos h
    have hrest : 32 ∣ ((c :: xs).drop width).length := by
      rw [List.length_drop]
      exact Nat.dvd_sub h (Nat.dvd_refl 32)
    have haddress : address + .ofNat width + .ofNat ((c :: xs).drop width).length =
        address + .ofNat (c :: xs).length := by
      rw [UInt16.add_assoc, ← UInt16.ofNat_add, List.length_drop, Nat.add_sub_of_le hfull]
    rw [List.cons_append, ofCells, ← List.cons_append, List.take_append_of_le_length hfull,
      List.drop_append_of_le_length hfull, ih hrest, haddress]
    rfl

/-- A line, its end left off, for cells from an address on: the address in upper case, a colon, and
for each cell a blank and its value in lower case. -/
def Shows (address : ℕ) (cells : List UInt8) (line : List Char) : Prop :=
  ∃ head pairs, Hex.Numeral .upper 4 address head ∧
    List.Forall₂ (fun c pair => Hex.Numeral .lower 2 (UInt8.toNat c) pair) cells pairs ∧
    line = head ++ ':' :: pairs.flatMap (' ' :: ·)

theorem Shows.length {address : ℕ} {cells : List UInt8} {line : List Char}
    (h : Shows address cells line) : line.length = 5 + 3 * cells.length := by
  obtain ⟨head, pairs, hhead, hpairs, rfl⟩ := h
  have hcells : (pairs.flatMap (' ' :: ·)).length = 3 * cells.length := by
    induction hpairs with
    | nil => rfl
    | cons hpair _ ih =>
      rw [List.flatMap_cons, List.length_append, ih, List.length_cons, hpair.length,
        List.length_cons]
      omega
  rw [List.length_append, hhead.length, List.length_cons, hcells]
  omega

theorem Shows.no_newline {address : ℕ} {cells : List UInt8} {line : List Char}
    (h : Shows address cells line) : '\n' ∉ line := by
  obtain ⟨head, pairs, hhead, hpairs, rfl⟩ := h
  have hnumeral {letters : Hex.Letters} {width n : ℕ} {text : List Char}
      (ht : Hex.Numeral letters width n text) : '\n' ∉ text := by
    intro hmem
    have := ht.digits _ hmem
    cases letters <;> revert this <;> decide
  have hcells : '\n' ∉ pairs.flatMap (' ' :: ·) := by
    induction hpairs with
    | nil => simp
    | cons hpair _ ih => simpa [hnumeral hpair] using ih
  simp [hnumeral hhead, hcells]

/-- The line of a row, its end left off. -/
def text (r : DumpRow) : List Char :=
  Hex.word .upper r.address ++ ':' :: r.cells.flatMap fun c => ' ' :: Hex.byte .lower c

theorem line_eq (r : DumpRow) : r.line = r.text ++ ['\n'] := rfl

theorem shows_text (r : DumpRow) : Shows r.address.toNat r.cells r.text := by
  refine ⟨Hex.word .upper r.address, r.cells.map (Hex.byte .lower), ?_, ?_, ?_⟩
  · exact Hex.numeral_word .upper r.address
  · simp [List.forall₂_map_right_iff, List.forall₂_same, Hex.numeral_byte]
  · rw [text, List.flatMap_map]

end DumpRow

namespace Memory

variable (memory : Memory) (start : UInt16) (length : ℕ)

/-- The rows of a window. -/
def rows : List DumpRow := DumpRow.ofCells start (memory.window start length)

theorem toList_dumpRange : (memory.dumpRange start length).toList =
    ((memory.rows start length).map DumpRow.text).flatMap (· ++ ['\n']) := by
  simp only [dumpRange, hexDump, String.toList_ofList, List.flatMap_map, ← DumpRow.line_eq, rows]

end Memory

end Mos6502
