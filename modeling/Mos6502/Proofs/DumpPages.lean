import Mathlib.Algebra.BigOperators.Group.List.Basic
import Mos6502.Proofs.DumpLines
/-!
Dumps page by page. A window that fills its rows is dumped the same way whatever follows it, so the
dump of a longer window is that of the first rows and then that of the rest, also where the end of
memory cuts the rest short. Paging through memory therefore shows the dump of all of it.
-/

namespace Mos6502.Memory

variable (memory : Memory)

/-- A window that does not reach the last cell can be followed by another one. -/
theorem windowSize_add {start : UInt16} {n : ℕ} (h : start.toNat + n ≤ 65535) (length : ℕ) :
    windowSize start (n + length) = n + windowSize (start + .ofNat n) length := by
  rw [windowSize, windowSize, toNat_add_ofNat h, size]
  omega

theorem windowSize_of_le {start : UInt16} {n : ℕ} (h : start.toNat + n ≤ 65535) :
    windowSize start n = n := by
  rw [windowSize, size]
  omega

theorem rows_append {start : UInt16} {k : ℕ} (h : start.toNat + 32 * k ≤ 65535) (length : ℕ) :
    memory.rows start (32 * k + length) =
      memory.rows start (32 * k) ++ memory.rows (start + .ofNat (32 * k)) length := by
  have hfull : 32 ∣ (memory.cellsFrom start (32 * k)).length := by
    rw [length_cellsFrom]
    exact Nat.dvd_mul_right 32 k
  simp only [rows, window_eq_cellsFrom]
  rw [windowSize_add h, windowSize_of_le h, cellsFrom_add, DumpRow.ofCells_append hfull,
    length_cellsFrom]

theorem dumpRange_append {start : UInt16} {k : ℕ} (h : start.toNat + 32 * k ≤ 65535)
    (length : ℕ) : memory.dumpRange start (32 * k + length) =
      memory.dumpRange start (32 * k) ++ memory.dumpRange (start + .ofNat (32 * k)) length := by
  apply String.toList_inj.mp
  rw [String.toList_append, toList_dumpRange, toList_dumpRange, toList_dumpRange,
    rows_append memory h, List.map_append, List.flatMap_append]

theorem dumpRange_zero (start : UInt16) : memory.dumpRange start 0 = "" := by
  have hnone : memory.window start 0 = [] := List.take_zero
  rw [dumpRange, hnone, hexDump, DumpRow.ofCells]
  rfl

theorem window_zero {length : ℕ} (h : size ≤ length) :
    memory.window 0 length = memory.cells.toList := by
  have hall : memory.cells.toList.length ≤ length := by rwa [Vector.length_toList]
  exact List.take_of_length_le hall

/-- Lengths past the end of memory make no difference. -/
theorem dumpRange_eq_dump {length : ℕ} (h : size ≤ length) :
    memory.dumpRange 0 length = memory.dump := by
  rw [dumpRange, memory.window_zero h, dump]

/-- The dumps of successive pages, which have the given numbers of rows, put together. -/
def pagedDump (start : UInt16) : List ℕ → String
  | [] => ""
  | k :: pages =>
    memory.dumpRange start (32 * k) ++ pagedDump (start + .ofNat (32 * k)) pages

/-- Every page begins at an address of memory; the last one may reach past the end. -/
def PagesBegin (start : UInt16) (pages : List ℕ) : Prop :=
  ∀ i < pages.length, start.toNat + 32 * (pages.take i).sum ≤ 65535

instance (start : UInt16) (pages : List ℕ) : Decidable (PagesBegin start pages) :=
  inferInstanceAs (Decidable (∀ i < _, _))

theorem pagesBegin_cons {start : UInt16} {k j : ℕ} {pages : List ℕ}
    (h : PagesBegin start (k :: j :: pages)) :
    start.toNat + 32 * k ≤ 65535 ∧ PagesBegin (start + .ofNat (32 * k)) (j :: pages) := by
  have hnext : start.toNat + 32 * k ≤ 65535 := by simpa using h 1 (by simp)
  refine ⟨hnext, fun i hi => ?_⟩
  have hpage := h (i + 1) (Nat.succ_lt_succ hi)
  rw [List.take_succ_cons, List.sum_cons] at hpage
  rw [toNat_add_ofNat hnext]
  omega

theorem pagedDump_eq {start : UInt16} {pages : List ℕ} (h : PagesBegin start pages) :
    memory.pagedDump start pages = memory.dumpRange start (32 * pages.sum) := by
  induction pages generalizing start with
  | nil => exact (memory.dumpRange_zero start).symm
  | cons k pages ih =>
    cases pages with
    | nil => simp [pagedDump]
    | cons j pages =>
      obtain ⟨hnext, hrest⟩ := pagesBegin_cons h
      rw [pagedDump, ih hrest, ← dumpRange_append memory hnext, ← Nat.mul_add, ← List.sum_cons]

/-- How dumps of windows fit together. -/
structure DumpsConcatenate (memory : Memory) : Prop where
  /-- The second window begins where the first, which fills its rows, ends. -/
  join : ∀ (start : UInt16) (k length : ℕ), start.toNat + 32 * k ≤ 65535 →
    memory.dumpRange start (32 * k + length) =
      memory.dumpRange start (32 * k) ++ memory.dumpRange (start + .ofNat (32 * k)) length
  whole : ∀ length, size ≤ length → memory.dump = memory.dumpRange 0 length
  paging : ∀ pages, PagesBegin 0 pages → size ≤ 32 * pages.sum →
    memory.pagedDump 0 pages = memory.dump

theorem dumps_concatenate (memory : Memory) : DumpsConcatenate memory := by
  constructor
  · intro start k length h
    exact memory.dumpRange_append h length
  · intro length h
    exact (memory.dumpRange_eq_dump h).symm
  · intro pages hbegin hsize
    rw [memory.pagedDump_eq hbegin, memory.dumpRange_eq_dump hsize]

/-- A page that begins in the middle of a row of the whole dump, before one that the end of memory
cuts short; and pages of many sizes, of which one is empty and the last is cut short. -/
theorem clamped_pages_concatenate :
    (0xFFC3 : UInt16).toNat + 32 * 1 ≤ 65535 ∧
    zero.dumpRange 0xFFC3 (32 * 1 + 100) =
      zero.dumpRange 0xFFC3 (32 * 1) ++ zero.dumpRange (0xFFC3 + .ofNat (32 * 1)) 100 ∧
    PagesBegin 0 [1000, 0, 1047, 9] ∧ size ≤ 32 * [1000, 0, 1047, 9].sum ∧
    zero.pagedDump 0 [1000, 0, 1047, 9] = zero.dump := by
  have hnext : (0xFFC3 : UInt16).toNat + 32 * 1 ≤ 65535 := by decide
  have hbegin : PagesBegin 0 [1000, 0, 1047, 9] := by decide
  have hsize : size ≤ 32 * [1000, 0, 1047, 9].sum := by decide
  have hzero := dumps_concatenate zero
  exact ⟨hnext, hzero.join 0xFFC3 1 100 hnext, hbegin, hsize, hzero.paging _ hbegin hsize⟩

end Mos6502.Memory
