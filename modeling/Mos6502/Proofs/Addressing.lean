import Mos6502.Cpu.Address
import Mos6502.Machine.Basic
/-!
What the addressing modes mean. `Mode.cell` and `Mode.value` say from the operand bytes, the
registers and the bus which cell a mode designates and which byte a load gets; `Mode.finding` lists
the cycles this takes. `run_address` and `run_operand` say that the processor's programs do so.
-/

namespace Mos6502

/-- The two bytes after an opcode. A shorter instruction leaves the rest unread. -/
structure Operand where
  low : UInt8
  high : UInt8
  deriving DecidableEq, Repr

def Operand.word (o : Operand) : UInt16 := Word.ofBytes o.low o.high

namespace Bus

variable {β : Type} [Bus β]

def peek (bus : β) (address : UInt16) : Cycle := .read address (read bus address)

def wordAt (bus : β) (address : UInt16) : UInt16 :=
  Word.ofBytes (read bus address) (read bus (address + 1))

def pointer (bus : β) (p : UInt8) : UInt16 :=
  Word.ofBytes (read bus p.toUInt16) (read bus (p + 1).toUInt16)

def writeWord (bus : β) (address w : UInt16) : β :=
  write (write bus address (Word.low w)) (address + 1) (Word.high w)

end Bus

namespace Machine

variable {β : Type}

def skip (m : Machine β) (offset : UInt16) : Machine β :=
  { m with cpu := { m.cpu with pc := m.cpu.pc + offset } }

@[simp] theorem skip_bus (m : Machine β) (offset : UInt16) : (m.skip offset).bus = m.bus := rfl

@[simp] theorem skip_cpu (m : Machine β) (offset : UInt16) :
    (m.skip offset).cpu = { m.cpu with pc := m.cpu.pc + offset } := rfl

theorem skip_skip (m : Machine β) (j k : UInt16) : (m.skip j).skip k = m.skip (j + k) := by
  simp only [skip, UInt16.add_assoc]

variable [Bus β]

def byteAt (m : Machine β) (offset : UInt16) : UInt8 := Bus.read m.bus (m.cpu.pc + offset)

def fetch (m : Machine β) (offset : UInt16) : Cycle :=
  .read (m.cpu.pc + offset) (m.byteAt offset)

def operand (m : Machine β) : Operand := ⟨m.byteAt 1, m.byteAt 2⟩

end Machine

namespace Mode

variable {β : Type} [Bus β]

/-- The modes that add an index register to a word. -/
def WordIndexed (mode : Mode) : Prop :=
  mode = absoluteX ∨ mode = absoluteY ∨ mode = indirectY

instance (mode : Mode) : Decidable mode.WordIndexed := by
  unfold WordIndexed; infer_instance

def index (cpu : Cpu) : Mode → UInt8
  | zeroPageX | absoluteX | indirectX => cpu.x
  | zeroPageY | absoluteY | indirectY => cpu.y
  | implicit | immediate | zeroPage | absolute => 0

/-- The word that a word-indexed mode adds its index to. -/
def base (o : Operand) (m : Machine β) : Mode → UInt16
  | indirectY => Bus.pointer m.bus o.low
  | _ => o.word

/-- The cell that a mode designates; the modes without one stand at the first cell. -/
def cell (o : Operand) (m : Machine β) : Mode → UInt16
  | implicit | immediate => 0
  | zeroPage => o.low.toUInt16
  | zeroPageX => (o.low + m.cpu.x).toUInt16
  | zeroPageY => (o.low + m.cpu.y).toUInt16
  | absolute => o.word
  | absoluteX => o.word + m.cpu.x.toUInt16
  | absoluteY => o.word + m.cpu.y.toUInt16
  | indirectX => Bus.pointer m.bus (o.low + m.cpu.x)
  | indirectY => Bus.pointer m.bus o.low + m.cpu.y.toUInt16

def value (o : Operand) (m : Machine β) : Mode → UInt8
  | immediate => o.low
  | mode => Bus.read m.bus (mode.cell o m)

theorem value_of_cell {mode : Mode} (h : mode ≠ immediate) (o : Operand) (m : Machine β) :
    mode.value o m = Bus.read m.bus (mode.cell o m) := value.eq_2 o m mode h

theorem cell_of_word_indexed {mode : Mode} (h : mode.WordIndexed) (o : Operand) (m : Machine β) :
    mode.cell o m = mode.base o m + (mode.index m.cpu).toUInt16 := by
  rcases h with rfl | rfl | rfl <;> rfl

def indexCycle (charge : IndexCharge) (base effective : UInt16) : List Cycle :=
  if charge = .always ∨ PageCrossed base effective then [.internal] else []

def pointerReads (bus : β) (p : UInt8) : List Cycle :=
  [Bus.peek bus p.toUInt16, Bus.peek bus (p + 1).toUInt16]

/-- The cycles that lead to the designated cell. -/
def finding (charge : IndexCharge) (m : Machine β) : Mode → List Cycle
  | implicit | immediate => []
  | zeroPage => [m.fetch 1]
  | zeroPageX | zeroPageY => [m.fetch 1, .internal]
  | absolute => [m.fetch 1, m.fetch 2]
  | absoluteX =>
    [m.fetch 1, m.fetch 2] ++
      indexCycle charge (absoluteX.base m.operand m) (absoluteX.cell m.operand m)
  | absoluteY =>
    [m.fetch 1, m.fetch 2] ++
      indexCycle charge (absoluteY.base m.operand m) (absoluteY.cell m.operand m)
  | indirectX => [m.fetch 1, .internal] ++ pointerReads m.bus (m.operand.low + m.cpu.x)
  | indirectY =>
    [m.fetch 1] ++ pointerReads m.bus m.operand.low ++
      indexCycle charge (indirectY.base m.operand m) (indirectY.cell m.operand m)

def reading (m : Machine β) : Mode → List Cycle
  | immediate => [m.fetch 1]
  | mode => mode.finding .onCrossing m ++ [Bus.peek m.bus (mode.cell m.operand m)]

theorem reading_of_cell {mode : Mode} (h : mode ≠ immediate) (m : Machine β) :
    mode.reading m = mode.finding .onCrossing m ++ [Bus.peek m.bus (mode.cell m.operand m)] :=
  reading.eq_2 m mode h

end Mode

namespace Machine

variable {β : Type} [Bus β]

theorem run_fetchByte (m : Machine β) (offset : UInt16) :
    (m.skip offset).run CpuM.fetchByte =
      ⟨m.byteAt offset, m.skip (offset + 1), [m.fetch offset]⟩ := by
  simp [CpuM.fetchByte, run_bind, run_map, skip, byteAt, fetch, Outcome.after, UInt16.add_assoc]

theorem run_fetchWord (m : Machine β) :
    (m.skip 1).run CpuM.fetchWord = ⟨m.operand.word, m.skip 3, [m.fetch 1, m.fetch 2]⟩ := by
  simp [CpuM.fetchWord, run_bind, run_map, run_fetchByte, Outcome.after, Operand.word, operand]

theorem run_readWord (m : Machine β) (address : UInt16) :
    m.run (CpuM.readWord address) =
      ⟨Bus.wordAt m.bus address, m, [Bus.peek m.bus address, Bus.peek m.bus (address + 1)]⟩ := by
  simp [CpuM.readWord, run_bind, run_map, Outcome.after, Bus.wordAt, Bus.peek]

theorem run_readPointer (m : Machine β) (p : UInt8) :
    m.run (CpuM.readPointer p) = ⟨Bus.pointer m.bus p, m, Mode.pointerReads m.bus p⟩ := by
  simp only [CpuM.readPointer, bind_pure_comp, run_bind, run_map, run_readByte, Outcome.after,
    Bus.pointer, Mode.pointerReads, Bus.peek, List.cons_append, List.nil_append]

theorem run_indexed (m : Machine β) (charge : IndexCharge) (base : UInt16) (index : UInt8) :
    m.run (CpuM.indexed charge base index) =
      ⟨base + index.toUInt16, m, Mode.indexCycle charge base (base + index.toUInt16)⟩ := by
  unfold CpuM.indexed Mode.indexCycle
  by_cases h : charge = .always ∨ PageCrossed base (base + index.toUInt16)
  · simp [h, run_map]
  · simp [h]

theorem run_zeroPageIndexed (m : Machine β) (index : UInt8) :
    (m.skip 1).run (CpuM.zeroPageIndexed index) =
      ⟨m.operand.low + index, m.skip 2, [m.fetch 1, .internal]⟩ := by
  simp [CpuM.zeroPageIndexed, run_bind, run_map, run_fetchByte, Outcome.after, operand]

/-- Finding an address takes the operand bytes from the instruction stream and changes nothing
else. -/
theorem run_address (m : Machine β) {charge : IndexCharge} {mode : Mode} {p : CpuM UInt16}
    (h : mode.address? charge = some p) :
    (m.skip 1).run p =
      ⟨mode.cell m.operand m, m.skip (.ofNat (1 + mode.operandBytes)), mode.finding charge m⟩ := by
  cases mode with
  | implicit => cases h
  | immediate => cases h
  | zeroPage =>
    cases h
    simp [run_map, run_fetchByte, operand, Mode.cell, Mode.finding, Mode.operandBytes]
  | zeroPageX =>
    cases h
    simp [run_bind, run_map, run_zeroPageIndexed, Mode.cell, Mode.finding, Mode.operandBytes,
      Outcome.after, -UInt8.toUInt16_add]
  | zeroPageY =>
    cases h
    simp [run_bind, run_map, run_zeroPageIndexed, Mode.cell, Mode.finding, Mode.operandBytes,
      Outcome.after, -UInt8.toUInt16_add]
  | absolute =>
    cases h
    simp [run_fetchWord, Mode.cell, Mode.finding, Mode.operandBytes]
  | absoluteX =>
    cases h
    simp [run_bind, run_fetchWord, run_indexed, Mode.cell, Mode.base, Mode.finding,
      Mode.operandBytes, Outcome.after]
  | absoluteY =>
    cases h
    simp [run_bind, run_fetchWord, run_indexed, Mode.cell, Mode.base, Mode.finding,
      Mode.operandBytes, Outcome.after]
  | indirectX =>
    cases h
    simp [run_bind, run_zeroPageIndexed, run_readPointer, Mode.cell, Mode.finding,
      Mode.operandBytes, Outcome.after]
  | indirectY =>
    cases h
    simp [run_bind, run_fetchByte, run_readPointer, run_indexed, operand, Mode.cell, Mode.base,
      Mode.finding, Mode.operandBytes, Outcome.after]

theorem run_operand (m : Machine β) {mode : Mode} {p : CpuM UInt8} (h : mode.operand? = some p) :
    (m.skip 1).run p =
      ⟨mode.value m.operand m, m.skip (.ofNat (1 + mode.operandBytes)), mode.reading m⟩ := by
  by_cases hi : mode = .immediate
  · subst hi
    cases h
    exact run_fetchByte m 1
  · rw [Mode.operand?.eq_2 _ hi] at h
    obtain ⟨q, hq, rfl⟩ := Option.map_eq_some_iff.mp h
    simp [run_bind, run_address m hq, Mode.value_of_cell hi, Mode.reading_of_cell hi,
      Outcome.after, Bus.peek]

end Machine

end Mos6502
