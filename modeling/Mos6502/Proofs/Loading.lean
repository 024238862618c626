import Mathlib.Data.List.Induction
import Mathlib.Order.Bounds.Basic
import Mos6502.Memory.Basic
/-!
Loading memory. `addresses` are those of successive cells, going round at the end of memory, and
`Memory.Holds` says which bytes such cells hold. Bytes that are loaded lie in successive cells, and
no other cell changes. As long as there is a cell for each byte they are all held, so that loading a
copy of all cells makes any memory equal to the copied one. Of more bytes than that the last one for
each cell stays.
-/

namespace Mos6502

/-- The addresses from one on, as many as asked for. -/
def addresses (start : UInt16) : ℕ → List UInt16
  | 0 => []
  | n + 1 => start :: addresses (start + 1) n

/-- An address is among successive ones if it is not too far above the first, going round. -/
theorem mem_addresses {start a : UInt16} {n : ℕ} :
    a ∈ addresses start n ↔ (a - start).toNat < n := by
  induction n generalizing start with
  | zero => simp [addresses]
  | succ n ih =>
    have ha := a.toNat_lt
    have hs := start.toNat_lt
    rw [addresses, List.mem_cons, ih, ← UInt16.toNat_inj]
    simp only [UInt16.toNat_sub, UInt16.toNat_add, UInt16.reduceToNat]
    omega

theorem length_addresses (start : UInt16) (n : ℕ) : (addresses start n).length = n := by
  induction n generalizing start with
  | zero => rfl
  | succ n ih => rw [addresses, List.length_cons, ih]

/-- Successive addresses come back to the first one after 65536 only. -/
theorem not_mem_addresses_succ {start : UInt16} {n : ℕ} (hn : n < 65536) :
    start ∉ addresses (start + 1) n := by
  have hs := start.toNat_lt
  rw [mem_addresses]
  simp only [UInt16.toNat_sub, UInt16.toNat_add, UInt16.reduceToNat]
  omega

/-- Addresses that go round at the end of memory, in plain numbers. -/
theorem ofNat_add_mod (start : UInt16) (n : ℕ) :
    UInt16.ofNat ((start.toNat + n) % Memory.size) = start + .ofNat n := by
  apply UInt16.toNat_inj.mp
  simp [Memory.size]

theorem add_ofNat_succ (start : UInt16) (n : ℕ) :
    start + .ofNat (n + 1) = start + 1 + .ofNat n := by
  rw [Nat.add_comm, UInt16.ofNat_add, UInt16.add_assoc]
  rfl

theorem toNat_add_ofNat {start : UInt16} {n : ℕ} (h : start.toNat + n ≤ 65535) :
    (start + .ofNat n).toNat = start.toNat + n := by
  rw [UInt16.toNat_add, UInt16.toNat_ofNat', Nat.add_mod_mod]
  exact Nat.mod_eq_of_lt (by omega)

namespace Memory

/-- Successive cells hold the bytes. -/
def Holds (memory : Memory) (start : UInt16) : List UInt8 → Prop
  | [] => True
  | v :: bytes => memory.read start = v ∧ memory.Holds (start + 1) bytes

theorem holds_append {memory : Memory} {start : UInt16} {xs ys : List UInt8} :
    memory.Holds start (xs ++ ys) ↔
      memory.Holds start xs ∧ memory.Holds (start + .ofNat xs.length) ys := by
  induction xs generalizing start with
  | nil => simp [Holds]
  | cons v xs ih =>
    rw [List.cons_append, Holds, Holds, ih, and_assoc, List.length_cons, add_ofNat_succ]

theorem holds_write {memory : Memory} {start a : UInt16} {v : UInt8} {bytes : List UInt8}
    (h : memory.Holds start bytes) (ha : a ∉ addresses start bytes.length) :
    (memory.write a v).Holds start bytes := by
  induction bytes generalizing start with
  | nil => trivial
  | cons w bytes ih =>
    rw [List.length_cons, addresses, List.mem_cons, not_or] at ha
    constructor
    · rw [read_write, if_neg ha.1]
      exact h.1
    · exact ih h.2 ha.2

/-- The contents of successive cells, going round at the end of memory. -/
def cellsFrom (memory : Memory) (start : UInt16) (n : ℕ) : List UInt8 :=
  (addresses start n).map memory.read

theorem cellsFrom_succ (memory : Memory) (start : UInt16) (n : ℕ) :
    memory.cellsFrom start (n + 1) = memory.read start :: memory.cellsFrom (start + 1) n := rfl

theorem length_cellsFrom (memory : Memory) (start : UInt16) (n : ℕ) :
    (memory.cellsFrom start n).length = n := by
  rw [cellsFrom, List.length_map, length_addresses]

theorem getElem?_cellsFrom (memory : Memory) (start : UInt16) {n k : ℕ} (h : k < n) :
    (memory.cellsFrom start n)[k]? = some (memory.read (start + .ofNat k)) := by
  induction n generalizing start k with
  | zero => exact absurd h k.not_lt_zero
  | succ n ih =>
    rw [cellsFrom_succ]
    cases k with
    | zero => simp
    | succ k =>
      rw [List.getElem?_cons_succ, ih (start + 1) (Nat.lt_of_succ_lt_succ h), add_ofNat_succ]

theorem take_drop_cellsFrom (memory : Memory) (start : UInt16) (n skipped taken : ℕ) :
    ((memory.cellsFrom start n).drop skipped).take taken =
      memory.cellsFrom (start + .ofNat skipped) (min taken (n - skipped)) := by
  apply List.ext_getElem?
  intro k
  by_cases hk : k < min taken (n - skipped)
  · rw [getElem?_cellsFrom _ _ hk, List.getElem?_take_of_lt (by omega), List.getElem?_drop,
      getElem?_cellsFrom _ _ (by omega), UInt16.ofNat_add, UInt16.add_assoc]
  · rw [List.getElem?_eq_none, List.getElem?_eq_none]
    · rw [length_cellsFrom]
      omega
    · rw [List.length_take, List.length_drop, length_cellsFrom]
      omega

theorem cellsFrom_add (memory : Memory) (start : UInt16) (j n : ℕ) :
    memory.cellsFrom start (j + n) =
      memory.cellsFrom start j ++ memory.cellsFrom (start + .ofNat j) n := by
  induction j generalizing start with
  | zero => simp [cellsFrom, addresses]
  | succ j ih =>
    rw [Nat.add_right_comm, cellsFrom_succ, ih, cellsFrom_succ, List.cons_append, add_ofNat_succ]

theorem cellsFrom_eq_iff {memory other : Memory} {start : UInt16} {n : ℕ} :
    memory.cellsFrom start n = other.cellsFrom start n ↔
      ∀ a ∈ addresses start n, memory.read a = other.read a := List.map_inj_left

theorem read_load_of_not_mem {memory : Memory} {start a : UInt16} {bytes : List UInt8}
    (ha : a ∉ addresses start bytes.length) : (memory.load start bytes).read a = memory.read a := by
  induction bytes generalizing memory start with
  | nil => rfl
  | cons v bytes ih =>
    rw [List.length_cons, addresses, List.mem_cons, not_or] at ha
    rw [load, ih ha.2, read_write, if_neg (Ne.symm ha.1)]

theorem holds_load (memory : Memory) (start : UInt16) {bytes : List UInt8}
    (hsize : bytes.length ≤ size) : (memory.load start bytes).Holds start bytes := by
  induction bytes generalizing memory start with
  | nil => trivial
  | cons v bytes ih =>
    have hlt : bytes.length < 65536 := hsize
    constructor
    · -- the bytes after the first are too few to come round to its cell
      rw [load, read_load_of_not_mem (not_mem_addresses_succ hlt), read_write, if_pos rfl]
    · exact ih (memory.write start v) (start + 1) (Nat.le_of_lt hlt)

/-- Cells hold only one list of bytes of a given length. -/
theorem Holds.unique {memory : Memory} {start : UInt16} {xs ys : List UInt8}
    (hx : memory.Holds start xs) (hy : memory.Holds start ys) (hlength : xs.length = ys.length) :
    xs = ys := by
  induction xs generalizing start ys with
  | nil => exact (List.length_eq_zero_iff.mp hlength.symm).symm
  | cons x xs ih =>
    cases ys with
    | nil => cases hlength
    | cons y ys =>
      obtain ⟨hxv, hxs⟩ := hx
      obtain ⟨hyv, hys⟩ := hy
      rw [← hxv, ← hyv, ih hxs hys (Nat.succ_inj.mp hlength)]

/-- Cells that hold a copy of another memory's cells read like these. -/
theorem holds_cellsFrom {memory source : Memory} {start : UInt16} {n : ℕ} :
    memory.Holds start (source.cellsFrom start n) ↔
      ∀ a ∈ addresses start n, memory.read a = source.read a := by
  induction n generalizing start with
  | zero => simp [cellsFrom, addresses, Holds]
  | succ n ih =>
    rw [cellsFrom_succ, Holds, ih, addresses, List.forall_mem_cons]

/-- It does not matter where the copy begins, nor what the memory held before. -/
theorem load_cellsFrom (memory source : Memory) (start : UInt16) :
    memory.load start (source.cellsFrom start size) = source := by
  have hheld := memory.holds_load start (Nat.le_of_eq (source.length_cellsFrom start size))
  rw [holds_cellsFrom] at hheld
  apply ext
  intro a
  exact hheld a (mem_addresses.mpr (a - start).toNat_lt)

theorem load_append (memory : Memory) (start : UInt16) (xs ys : List UInt8) :
    memory.load start (xs ++ ys) = (memory.load start xs).load (start + .ofNat xs.length) ys := by
  induction xs generalizing memory start with
  | nil => simp [load]
  | cons v xs ih =>
    rw [List.cons_append, load, ih, load, List.length_cons, add_ofNat_succ]

/-- The indices of those of `count` loaded bytes that are for one cell. -/
def landing (start a : UInt16) (count : ℕ) : Set ℕ :=
  {i | i < count ∧ (start.toNat + i) % size = a.toNat}

theorem mem_landing_succ {start a : UInt16} {count i : ℕ} :
    i ∈ landing start a (count + 1) ↔
      i ∈ landing start a count ∨ i = count ∧ start + .ofNat count = a := by
  have hlast : start + .ofNat count = a ↔ (start.toNat + count) % size = a.toNat := by
    rw [← UInt16.toNat_inj, UInt16.toNat_add, UInt16.toNat_ofNat', Nat.add_mod_mod]
    rfl
  rw [hlast]
  constructor
  · rintro ⟨hi, ha⟩
    by_cases hic : i = count
    · subst hic
      exact Or.inr ⟨rfl, ha⟩
    · exact Or.inl ⟨by omega, ha⟩
  · rintro (⟨hi, ha⟩ | ⟨rfl, ha⟩)
    · exact ⟨Nat.lt_succ_of_lt hi, ha⟩
    · exact ⟨Nat.lt_succ_self i, ha⟩

theorem read_load (memory : Memory) (start a : UInt16) (bytes : List UInt8) :
    (∃ i, IsGreatest (landing start a bytes.length) i ∧
        bytes[i]? = some ((memory.load start bytes).read a)) ∨
      landing start a bytes.length = ∅ ∧ (memory.load start bytes).read a = memory.read a := by
  induction bytes using List.reverseRecOn with
  | nil =>
    right
    constructor
    · simp [landing]
    · rfl
  | append_singleton bytes v ih =>
    rw [load_append, load, load, read_write, List.length_append, List.length_singleton]
    by_cases ha : start + .ofNat bytes.length = a
    · -- no index is above that of the last byte
      left
      refine ⟨bytes.length, ⟨mem_landing_succ.mpr (Or.inr ⟨rfl, ha⟩), ?_⟩, by simp [ha]⟩
      intro i hi
      exact Nat.le_of_lt_succ hi.1
    · have hsame : landing start a (bytes.length + 1) = landing start a bytes.length := by
        ext i
        simp [mem_landing_succ, ha]
      rw [hsame, if_neg ha]
      rcases ih with ⟨i, hi, hread⟩ | hnone
      · left
        refine ⟨i, hi, ?_⟩
        rw [List.getElem?_append_left hi.1.1, hread]
      · exact Or.inr hnone

/-- What memory is after a load. Each cell has the last of the bytes for it, or is as it was if
there are none, and the bytes may as well be loaded in two parts. -/
structure LastWriterWins (memory : Memory) (start : UInt16) (bytes : List UInt8) : Prop where
  cells : ∀ a,
    (∃ i, IsGreatest (landing start a bytes.length) i ∧
        bytes[i]? = some ((memory.load start bytes).read a)) ∨
      landing start a bytes.length = ∅ ∧ (memory.load start bytes).read a = memory.read a
  split : ∀ xs ys, bytes = xs ++ ys → memory.load start bytes =
    (memory.load start xs).load (.ofNat ((start.toNat + xs.length) % size)) ys

theorem last_writer_wins (memory : Memory) (start : UInt16) (bytes : List UInt8) :
    LastWriterWins memory start bytes := by
  constructor
  · intro a
    exact memory.read_load start a bytes
  · rintro xs ys rfl
    rw [load_append, ofNat_add_mod]

end Memory

end Mos6502
