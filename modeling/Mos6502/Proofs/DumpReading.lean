import Mos6502.Emulator
import Mos6502.Proofs.DumpLines
/-!
Reading dumps. A reader takes a text apart into lines and each line into its address and cells. It
reads every dump, and the cells it finds are those of the window; so a dump tells its window, and
nothing more.
-/

namespace Mos6502

/-- The lines of a text, or `none` if its last line has no end. -/
def lines? : List Char → Option (List (List Char))
  | [] => some []
  | c :: text =>
    if c = '\n' then (lines? text).map ([] :: ·)
    else match lines? text with
      | some (line :: lines) => some ((c :: line) :: lines)
      | _ => none

theorem lines?_append {line : List Char} (h : '\n' ∉ line) (text : List Char) :
    lines? (line ++ '\n' :: text) = (lines? text).map (line :: ·) := by
  induction line with
  | nil => simp [lines?]
  | cons c line ih =>
    rw [List.mem_cons, not_or] at h
    rw [List.cons_append, lines?, if_neg (Ne.symm h.1), ih h.2]
    cases lines? text <;> rfl

theorem lines?_flatMap {lines : List (List Char)} (h : ∀ line ∈ lines, '\n' ∉ line) :
    lines? (lines.flatMap (· ++ ['\n'])) = some lines := by
  induction lines with
  | nil => rfl
  | cons line lines ih =>
    rw [List.forall_mem_cons] at h
    rw [List.flatMap_cons, List.append_assoc, List.singleton_append, lines?_append h.1, ih h.2]
    rfl

namespace DumpRow

/-- Reads cells, each of them a blank and two digits. -/
def cells? : List Char → Option (List UInt8)
  | [] => some []
  | ' ' :: high :: low :: text => do
    let v ← Hex.number? .lower 2 [high, low]
    let cells ← cells? text
    return .ofNat v :: cells
  | _ => none

def ofLine? (line : List Char) : Option DumpRow :=
  match line.drop 4 with
  | ':' :: text => do
    let address ← Hex.number? .upper 4 (line.take 4)
    let cells ← cells? text
    return ⟨.ofNat address, cells⟩
  | _ => none

theorem cells?_of_numerals {cells : List UInt8} {pairs : List (List Char)}
    (h : List.Forall₂ (fun c pair => Hex.Numeral .lower 2 (UInt8.toNat c) pair) cells pairs) :
    cells? (pairs.flatMap (' ' :: ·)) = some cells := by
  induction h with
  | nil => rfl
  | @cons c pair cells pairs hpair _ ih =>
    obtain ⟨high, low, rfl⟩ := List.length_eq_two.mp hpair.length
    simp [cells?, hpair.number?, ih]

theorem Shows.ofLine? {address : ℕ} {cells : List UInt8} {line : List Char}
    (h : Shows address cells line) : ofLine? line = some ⟨.ofNat address, cells⟩ := by
  obtain ⟨head, pairs, hhead, hpairs, rfl⟩ := h
  have hdrop : (head ++ ':' :: pairs.flatMap (' ' :: ·)).drop 4 =
      ':' :: pairs.flatMap (' ' :: ·) := List.drop_left' hhead.length
  have htake : (head ++ ':' :: pairs.flatMap (' ' :: ·)).take 4 = head :=
    List.take_left' hhead.length
  simp [DumpRow.ofLine?, hdrop, htake, hhead.number?, cells?_of_numerals hpairs]

example : ofLine? "0200: a9 84".toList = some ⟨0x0200, [0xA9, 0x84]⟩ := by decide

theorem ofLine?_text (r : DumpRow) : ofLine? r.text = some r := by
  rw [r.shows_text.ofLine?, UInt16.ofNat_toNat]

/-- Reads a dump. -/
def ofDump? (text : String) : Option (List DumpRow) :=
  (lines? text.toList).bind fun lines => lines.mapM ofLine?

end DumpRow

namespace Memory

theorem newline_not_mem_rows {memory : Memory} {start : UInt16} {length : ℕ} :
    ∀ line ∈ (memory.rows start length).map DumpRow.text, '\n' ∉ line := by
  intro line hline
  obtain ⟨r, -, rfl⟩ := List.mem_map.mp hline
  exact r.shows_text.no_newline

theorem ofDump?_dumpRange (memory : Memory) (start : UInt16) (length : ℕ) :
    DumpRow.ofDump? (memory.dumpRange start length) = some (memory.rows start length) := by
  have hrows (rows : List DumpRow) : (rows.map DumpRow.text).mapM DumpRow.ofLine? = some rows := by
    induction rows with
    | nil => rfl
    | cons r rows ih => simp [List.mapM_cons, ih, r.ofLine?_text]
  rw [DumpRow.ofDump?, toList_dumpRange, lines?_flatMap newline_not_mem_rows, Option.bind_some,
    hrows]

theorem flatMap_rows (memory : Memory) (start : UInt16) (length : ℕ) :
    (memory.rows start length).flatMap DumpRow.cells =
      memory.cellsFrom start (windowSize start length) := by
  rw [rows, DumpRow.flatMap_ofCells, window_eq_cellsFrom]

theorem length_rows (memory : Memory) (start : UInt16) (length : ℕ) :
    (memory.rows start length).length = (windowSize start length + 31) / 32 := by
  rw [rows, DumpRow.length_ofCells, window_eq_cellsFrom, length_cellsFrom]

/-- Addresses of rows do not wrap: a row that is there begins below the end of memory. -/
theorem shows_row (memory : Memory) (start : UInt16) (length : ℕ) {i : ℕ} {line : List Char}
    (h : ((memory.rows start length).map DumpRow.text)[i]? = some line) :
    32 * i < windowSize start length ∧ DumpRow.Shows (start.toNat + 32 * i)
      (memory.cellsFrom (start + .ofNat (32 * i)) (min 32 (windowSize start length - 32 * i))) line := by
  rw [List.getElem?_map, Option.map_eq_some_iff] at h
  obtain ⟨r, hr, rfl⟩ := h
  have hi : i < (windowSize start length + 31) / 32 := by
    obtain ⟨hi, -⟩ := List.getElem?_eq_some_iff.mp hr
    rwa [length_rows] at hi
  have hlt : 32 * i < windowSize start length := by omega
  have hn : windowSize start length ≤ 65536 - start.toNat := Nat.min_le_right _ _
  rw [rows, window_eq_cellsFrom, DumpRow.getElem?_ofCells (by rwa [length_cellsFrom]),
    take_drop_cellsFrom] at hr
  have haddress : (start + .ofNat (32 * i)).toNat = start.toNat + 32 * i :=
    toNat_add_ofNat (by omega)
  have hshows := r.shows_text
  obtain rfl := Option.some.inj hr
  rw [haddress] at hshows
  exact ⟨hlt, hshows⟩

/-- The lines of a dump of `n` cells: 32 cells in each of them but the last, which shows the rest. -/
structure DumpLines (memory : Memory) (start : UInt16) (n : ℕ) (lines : List (List Char)) :
    Prop where
  count : lines.length = (n + 31) / 32
  full : ∀ i line, lines[i]? = some line → i + 1 < lines.length →
    DumpRow.Shows (start.toNat + 32 * i) (memory.cellsFrom (start + .ofNat (32 * i)) 32) line
  last : ∀ i line, lines[i]? = some line → i + 1 = lines.length →
    ∃ rest, 1 ≤ rest ∧ rest ≤ 32 ∧ 32 * i + rest = n ∧
      DumpRow.Shows (start.toNat + 32 * i) (memory.cellsFrom (start + .ofNat (32 * i)) rest) line

theorem dumpLines_rows (memory : Memory) (start : UInt16) (length : ℕ) :
    DumpLines memory start (windowSize start length)
      ((memory.rows start length).map DumpRow.text) := by
  have hcount : ((memory.rows start length).map DumpRow.text).length =
      (windowSize start length + 31) / 32 := by rw [List.length_map, length_rows]
  constructor
  · exact hcount
  · intro i line hline hi
    obtain ⟨-, hshows⟩ := memory.shows_row start length hline
    rwa [Nat.min_eq_left (by omega)] at hshows
  · intro i line hline hi
    obtain ⟨hlt, hshows⟩ := memory.shows_row start length hline
    rw [Nat.min_eq_right (by omega)] at hshows
    exact ⟨windowSize start length - 32 * i, by omega, by omega, by omega, hshows⟩

theorem length_dumpRange (memory : Memory) (start : UInt16) (length : ℕ) :
    (memory.dumpRange start length).length =
      6 * ((windowSize start length + 31) / 32) + 3 * windowSize start length := by
  have hlines (rows : List DumpRow) : ((rows.map DumpRow.text).flatMap (· ++ ['\n'])).length =
      6 * rows.length + 3 * (rows.flatMap DumpRow.cells).length := by
    induction rows with
    | nil => rfl
    | cons r rows ih =>
      rw [List.map_cons, List.flatMap_cons, List.length_append, ih, List.length_append,
        r.shows_text.length, List.length_singleton, List.length_cons, List.flatMap_cons,
        List.length_append]
      omega
  rw [← String.length_toList, toList_dumpRange, hlines, length_rows, flatMap_rows, length_cellsFrom]

/-- What a dump looks like and what it tells. -/
structure DumpReadsBack (memory : Memory) (start : UInt16) (length : ℕ) : Prop where
  /-- The text is made of lines, each with its end. -/
  lines : ∃ lines, (memory.dumpRange start length).toList = lines.flatMap (· ++ ['\n']) ∧
    (∀ line ∈ lines, '\n' ∉ line) ∧
    DumpLines memory start (windowSize start length) lines
  characters : (memory.dumpRange start length).length =
    6 * ((windowSize start length + 31) / 32) + 3 * windowSize start length
  reads : ∃ rows, DumpRow.ofDump? (memory.dumpRange start length) = some rows ∧
    rows.flatMap DumpRow.cells = memory.cellsFrom start (windowSize start length)
  /-- Only the cells of the window matter, and each of them does. -/
  same : ∀ other : Memory, memory.dumpRange start length = other.dumpRange start length ↔
    ∀ a ∈ addresses start (windowSize start length), memory.read a = other.read a
  host : ∀ e : Emulator, e.machine.bus = memory →
    e.dump start length = memory.dumpRange start length

theorem dump_reads_back (memory : Memory) (start : UInt16) (length : ℕ) :
    DumpReadsBack memory start length := by
  constructor
  · exact ⟨_, memory.toList_dumpRange start length, newline_not_mem_rows,
      memory.dumpLines_rows start length⟩
  · exact memory.length_dumpRange start length
  · exact ⟨_, memory.ofDump?_dumpRange start length, memory.flatMap_rows start length⟩
  · intro other
    rw [← cellsFrom_eq_iff]
    constructor
    · intro h
      have hrows : memory.rows start length = other.rows start length := by
        apply Option.some.inj
        rw [← ofDump?_dumpRange, h, ofDump?_dumpRange]
      rw [← flatMap_rows, hrows, flatMap_rows]
    · intro h
      rw [dumpRange, window_eq_cellsFrom, h, ← window_eq_cellsFrom]
      rfl
  · rintro e rfl
    rfl

end Memory

end Mos6502
