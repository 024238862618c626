import Mathlib.Algebra.Order.Ring.Int
import Mathlib.Data.List.Basic
import Mos6502.Proofs.Loading
/-!
The count of nonzero cells. A write changes it by what the new byte counts less what the old one
did, so the count follows from the writes alone. A load that is not longer than memory overwrites
each cell at most once, and there the old bytes can be counted before any of them is gone.
-/

namespace Mos6502.Memory

variable (memory : Memory)

/-- What a byte adds to the count. -/
def weight (v : UInt8) : ℕ := if v != 0 then 1 else 0

theorem nonzeroCells_write (a : UInt16) (v : UInt8) :
    (memory.write a v).nonzeroCells + weight (memory.read a) =
      memory.nonzeroCells + weight v := by
  have ha : a.toNat < 65536 := a.toNat_lt
  have hold : weight (memory.read a) ≤ memory.nonzeroCells :=
    Vector.boole_getElem_le_countP (p := (· != 0)) ha
  have hset : (memory.write a v).nonzeroCells =
      memory.nonzeroCells - weight (memory.read a) + weight v := Vector.countP_set ha
  omega

theorem nonzeroCells_eq_zero_iff : memory.nonzeroCells = 0 ↔ ∀ a, memory.read a = 0 := by
  rw [nonzeroCells, Vector.countP_eq_zero]
  constructor
  · intro h a
    simpa using h (memory.read a) (Vector.getElem_mem a.toNat_lt)
  · intro h v hv
    obtain ⟨i, hi, rfl⟩ := Vector.mem_iff_getElem.mp hv
    have hcell := h (.ofNat i)
    rw [read] at hcell
    simpa [Nat.mod_eq_of_lt hi] using hcell

/-- A write before the cells leaves them as they are, as long as there are too few to come round. -/
theorem cellsFrom_write {start : UInt16} {n : ℕ} (hn : n < 65536) (v : UInt8) :
    (memory.write start v).cellsFrom (start + 1) n = memory.cellsFrom (start + 1) n := by
  rw [cellsFrom_eq_iff]
  intro a ha
  have hne : start ≠ a := by
    rintro rfl
    exact not_mem_addresses_succ hn ha
  rw [read_write, if_neg hne]

theorem nonzeroCells_load (start : UInt16) {bytes : List UInt8} (hsize : bytes.length ≤ size) :
    (memory.load start bytes).nonzeroCells +
        (memory.cellsFrom start bytes.length).countP (· != 0) =
      memory.nonzeroCells + bytes.countP (· != 0) := by
  induction bytes generalizing memory start with
  | nil => rfl
  | cons v bytes ih =>
    have hlt : bytes.length < 65536 := hsize
    have hrest := ih (memory.write start v) (start + 1) (Nat.le_of_lt hlt)
    rw [memory.cellsFrom_write hlt] at hrest
    have hfirst := memory.nonzeroCells_write start v
    rw [load, List.length_cons, cellsFrom_succ, List.countP_cons, List.countP_cons]
    change _ + (_ + weight (memory.read start)) = _ + (_ + weight v)
    omega

/-- How many of `n` successive cells are not zero, going round at the end of memory. -/
def nonzeroFrom (start : UInt16) (n : ℕ) : ℕ :=
  (List.range n).countP fun i => memory.read (.ofNat ((start.toNat + i) % size)) != 0

theorem cellsFrom_eq_map_range (start : UInt16) (n : ℕ) :
    memory.cellsFrom start n = (List.range n).map fun i => memory.read (start + .ofNat i) := by
  apply List.ext_getElem?
  intro i
  by_cases hi : i < n
  · simp [memory.getElem?_cellsFrom start hi, hi]
  · rw [List.getElem?_eq_none (by rw [length_cellsFrom]; omega),
      List.getElem?_eq_none (by rw [List.length_map, List.length_range]; omega)]

theorem countP_cellsFrom (start : UInt16) (n : ℕ) :
    (memory.cellsFrom start n).countP (· != 0) = memory.nonzeroFrom start n := by
  rw [cellsFrom_eq_map_range, List.countP_map, nonzeroFrom]
  simp only [ofNat_add_mod, Function.comp_def]

/-- Single writes one after the other. -/
def writeAll (memory : Memory) : List (UInt16 × UInt8) → Memory
  | [] => memory
  | (a, v) :: writes => (memory.write a v).writeAll writes

/-- By how much each of successive writes changes the count. -/
def shifts (memory : Memory) : List (UInt16 × UInt8) → List ℤ
  | [] => []
  | (a, v) :: writes => (weight v - weight (memory.read a)) :: (memory.write a v).shifts writes

theorem writeAll_append (past writes : List (UInt16 × UInt8)) :
    memory.writeAll (past ++ writes) = (memory.writeAll past).writeAll writes := by
  induction past generalizing memory with
  | nil => rfl
  | cons w past ih => exact ih (memory.write w.1 w.2)

theorem nonzeroCells_writeAll (writes : List (UInt16 × UInt8)) :
    ((memory.writeAll writes).nonzeroCells : ℤ) =
      memory.nonzeroCells + (memory.shifts writes).sum := by
  induction writes generalizing memory with
  | nil => simp [writeAll, shifts]
  | cons w writes ih =>
    have hfirst := memory.nonzeroCells_write w.1 w.2
    rw [writeAll, ih, shifts, List.sum_cons]
    omega

/-- What an account of a memory says before the count. -/
def beforeCount : String := "FlatMemory \x7b size: 65536, nonzero_cells: "

/-- The number that an account of a memory tells. -/
def told? (text : String) : Option ℕ :=
  (text.toList.dropPrefix? beforeCount.toList).map fun rest =>
    Nat.ofDigitChars 10 (rest.takeWhile Char.isDigit) 0

theorem summary_eq :
    memory.summary = beforeCount ++ toString memory.nonzeroCells ++ " \x7d" := by
  have hbefore : "FlatMemory \x7b size: " ++ toString size ++ ", nonzero_cells: " =
      beforeCount := by decide
  unfold summary
  rw [hbefore]

theorem told?_summary : told? memory.summary = some memory.nonzeroCells := by
  have htext : memory.summary.toList =
      beforeCount.toList ++ (Nat.toDigits 10 memory.nonzeroCells ++ " \x7d".toList) := by
    rw [summary_eq, String.toList_append, String.toList_append, Nat.toString_eq_repr,
      Nat.toList_repr, List.append_assoc]
  have hdigits : ∀ c ∈ Nat.toDigits 10 memory.nonzeroCells, c.isDigit = true :=
    fun c hc => Nat.isDigit_of_mem_toDigits (by decide) (by decide) hc
  -- the blank ends the number
  have hrest : " \x7d".toList.takeWhile Char.isDigit = [] := by decide
  rw [told?, htext, List.dropPrefix?_append_of_beq _ (beq_self_eq_true _), Option.map_some,
    List.takeWhile_append_of_pos hdigits, hrest, List.append_nil,
    Nat.ofDigitChars_toDigits (by decide) (by decide)]

/-- How the count of nonzero cells, which the account of a memory tells, follows from what is done
to the memory. -/
structure CountFollows (memory : Memory) : Prop where
  told : ∀ m : Memory, told? m.summary = some m.nonzeroCells
  load : ∀ (start : UInt16) (bytes : List UInt8), bytes.length ≤ size →
    ((memory.load start bytes).nonzeroCells : ℤ) = memory.nonzeroCells -
      memory.nonzeroFrom start bytes.length + bytes.countP (· != 0)
  /-- The latest of a sequence of writes, and the whole sequence. -/
  write : ∀ (past : List (UInt16 × UInt8)) (a : UInt16) (v : UInt8),
    ((memory.writeAll (past ++ [(a, v)])).nonzeroCells : ℤ) =
      (memory.writeAll past).nonzeroCells + (weight v - weight ((memory.writeAll past).read a))
  writes : ∀ writes, ((memory.writeAll writes).nonzeroCells : ℤ) =
    memory.nonzeroCells + (memory.shifts writes).sum
  le_size : memory.nonzeroCells ≤ size
  zero_iff : memory.nonzeroCells = 0 ↔ ∀ a, memory.read a = 0
  clear : (Bus.clear memory).nonzeroCells = 0

theorem count_follows (memory : Memory) : CountFollows memory := by
  constructor
  · exact told?_summary
  · intro start bytes hsize
    have hload := memory.nonzeroCells_load start hsize
    rw [countP_cellsFrom] at hload
    omega
  · intro past a v
    have hlast := (memory.writeAll past).nonzeroCells_write a v
    rw [writeAll_append, writeAll, writeAll]
    omega
  · exact memory.nonzeroCells_writeAll
  · exact Vector.countP_le_size
  · exact memory.nonzeroCells_eq_zero_iff
  · exact (nonzeroCells_eq_zero_iff _).mpr read_zero

/-- Of the three cells across the end of memory only the second is nonzero before, and only the
other two are after. -/
theorem count_across_end :
    ([7, 0, 9] : List UInt8).length ≤ size ∧ (zero.write 0 5).nonzeroCells = 1 ∧
    (zero.write 0 5).nonzeroFrom 0xFFFF 3 = 1 ∧
    told? ((zero.write 0 5).load 0xFFFF [7, 0, 9]).summary = some 2 := by
  have hsize : ([7, 0, 9] : List UInt8).length ≤ size := by decide
  have hbefore : (zero.write 0 5).nonzeroCells = 1 := by
    have hwrite := zero.nonzeroCells_write 0 5
    rw [read_zero, zero.nonzeroCells_eq_zero_iff.mpr read_zero] at hwrite
    have hweights : weight 0 = 0 ∧ weight 5 = 1 := by decide
    omega
  have hold : (zero.write 0 5).nonzeroFrom 0xFFFF 3 = 1 := by
    simp [nonzeroFrom, List.range_succ, read_write, size]
  have hfollows := count_follows (zero.write 0 5)
  have hload := hfollows.load 0xFFFF [7, 0, 9] hsize
  refine ⟨hsize, hbefore, hold, ?_⟩
  rw [hbefore] at hload
  have hafter : ((zero.write 0 5).load 0xFFFF [7, 0, 9]).nonzeroCells = 2 := by
    have hlength : [(7 : UInt8), 0, 9].length = 3 := rfl
    have hnew : [(7 : UInt8), 0, 9].countP (· != 0) = 2 := by decide
    rw [hlength, hold, hnew] at hload
    omega
  rw [hfollows.told, hafter]

end Mos6502.Memory
