import Mos6502.Proofs.Flags
import Mos6502.Proofs.Timing
/-!
What loads and stores move. `Mode.location` gives the address that a mode designates in plain
numbers: sums in the zero page are taken modulo 256, sums with a word modulo 65536. A load brings
the byte found there into its register, a store puts its register there, and nothing else changes.
-/

namespace Mos6502

/-- The number in two cells, the low byte first. -/
def Memory.number (memory : Memory) (low high : UInt16) : ℕ :=
  (memory.read low).toNat + 256 * (memory.read high).toNat

/-- The number that a pointer in the zero page points at; after its last cell comes the first. -/
def Memory.pointed (memory : Memory) (p : ℕ) : ℕ :=
  memory.number (.ofNat p) (.ofNat ((p + 1) % 256))

theorem Memory.toNat_ofBytes_read (memory : Memory) (low high : UInt16) :
    (Word.ofBytes (memory.read low) (memory.read high)).toNat = memory.number low high :=
  Word.toNat_ofBytes (memory.read low) (memory.read high)

theorem Memory.toNat_pointer (memory : Memory) (p : UInt8) :
    (Bus.pointer memory p).toNat = memory.pointed p.toNat := by
  have hhigh : (p + 1).toNat = (p.toNat + 1) % 256 := UInt8.toNat_add p 1
  rw [Bus.pointer, bus_read, bus_read, toNat_ofBytes_read, pointed, ← hhigh,
    UInt16.ofNat_uInt8ToNat, UInt16.ofNat_uInt8ToNat]

namespace Mode

/-- The address that a mode designates; the modes without one stand at the first cell. -/
def location (m : Machine Memory) (mode : Mode) : ℕ :=
  let first := (m.bus.read (m.cpu.pc + 1)).toNat
  let word := m.bus.number (m.cpu.pc + 1) (m.cpu.pc + 2)
  let x := m.cpu.x.toNat
  let y := m.cpu.y.toNat
  match mode with
  | implicit | immediate => 0
  | zeroPage => first
  | zeroPageX => (first + x) % 256
  | zeroPageY => (first + y) % 256
  | absolute => word
  | absoluteX => (word + x) % 65536
  | absoluteY => (word + y) % 65536
  | indirectX => m.bus.pointed ((first + x) % 256)
  | indirectY => (m.bus.pointed first + y) % 65536

/-- The byte that a mode designates: that behind the opcode, or that at its location. -/
def source (m : Machine Memory) (mode : Mode) : UInt8 :=
  if mode = immediate then m.bus.read (m.cpu.pc + 1) else m.bus.read (.ofNat (mode.location m))

theorem toNat_cell (mode : Mode) (m : Machine Memory) :
    (mode.cell m.operand m).toNat = mode.location m := by
  have hlow : m.operand.low = m.bus.read (m.cpu.pc + 1) := rfl
  have hword : m.operand.word.toNat = m.bus.number (m.cpu.pc + 1) (m.cpu.pc + 2) :=
    m.bus.toNat_ofBytes_read (m.cpu.pc + 1) (m.cpu.pc + 2)
  cases mode with
  | implicit | immediate => rfl
  | zeroPage => rw [cell, location, hlow, UInt8.toNat_toUInt16]
  | zeroPageX | zeroPageY => rw [cell, location, hlow, UInt8.toNat_toUInt16, UInt8.toNat_add]
  | absolute => rw [cell, location, hword]
  | absoluteX | absoluteY =>
    rw [cell, location, UInt16.toNat_add, hword, UInt8.toNat_toUInt16]
  | indirectX => rw [cell, location, m.bus.toNat_pointer, hlow, UInt8.toNat_add]
  | indirectY =>
    rw [cell, location, UInt16.toNat_add, m.bus.toNat_pointer, hlow, UInt8.toNat_toUInt16]

theorem value_eq_source (mode : Mode) (m : Machine Memory) :
    mode.value m.operand m = mode.source m := by
  by_cases hi : mode = .immediate
  · subst hi
    rfl
  · rw [value_of_cell hi, source, if_neg hi, ← toNat_cell, UInt16.ofNat_toNat]
    rfl

end Mode

namespace Machine

variable {m : Machine Memory} {e : Entry} {r : Register}

/-- The next step completes. It brings a byte into a register, and Z and N tell of that byte; all
that it changes else is the program counter. -/
structure Loads (m : Machine Memory) (e : Entry) (r : Register) (v : UInt8) : Prop where
  completes : m.step.value = .ok m.step.cost
  loaded : m.next.cpu.register r = v
  zero : m.next.cpu.flags.z = true ↔ v = 0
  negative : m.next.cpu.flags.n = true ↔ v.toNat.testBit 7 = true
  registers : ∀ r', r' ≠ r → m.next.cpu.register r' = m.cpu.register r'
  flags : let f := m.next.cpu.flags
    f.c = m.cpu.flags.c ∧ f.i = m.cpu.flags.i ∧ f.d = m.cpu.flags.d ∧ f.b = m.cpu.flags.b ∧
      f.v = m.cpu.flags.v
  sp : m.next.cpu.sp = m.cpu.sp
  pc : m.next.cpu.pc = m.cpu.pc + .ofNat e.size
  memory : m.next.bus = m.bus

/-- The next step completes. It writes a register into a cell, and all that it changes else is the
program counter. -/
structure Stores (m : Machine Memory) (e : Entry) (r : Register) (cell : ℕ) : Prop where
  completes : m.step.value = .ok m.step.cost
  memory : ∀ a, m.next.bus.read a = if a.toNat = cell then m.cpu.register r else m.bus.read a
  cpu : m.next.cpu = { m.cpu with pc := m.cpu.pc + .ofNat e.size }

theorem next_of_load (he : m.decoded = some e) (hi : e.instruction = .load r) :
    m.next = ⟨(m.skip (.ofNat e.size)).cpu.load r (e.mode.source m), m.bus⟩ := by
  rw [next_of_entry he, Entry.effect, hi, Mode.value_eq_source]

/-- The cell is found before it is written, so it may be one of those that tell where it is. -/
theorem next_of_store (he : m.decoded = some e) (hi : e.instruction = .store r) :
    m.next = ⟨(m.skip (.ofNat e.size)).cpu,
      m.bus.write (.ofNat (e.mode.location m)) (m.cpu.register r)⟩ := by
  rw [next_of_entry he, Entry.effect, hi, ← Mode.toNat_cell, UInt16.ofNat_toNat]
  rfl

theorem load_moves_byte (m : Machine Memory) (e : Entry) (r : Register)
    (h : Entry.ofOpcode? (m.bus.read m.cpu.pc) = some e) (hi : e.instruction = .load r) :
    Loads m e r (e.mode.source m) := by
  have he : m.decoded = some e := h
  have hnext := next_of_load he hi
  have hflags : m.next.cpu.flags = m.cpu.flags.telling (e.mode.source m) := by
    rw [hnext]
    rfl
  constructor
  · exact step_ok_of_entry he
  · rw [hnext, Cpu.register_load, if_pos rfl]
  · rw [hflags, Flags.z_telling]
  · rw [hflags, Flags.n_telling]
  · intro r' hr
    rw [hnext, Cpu.register_load, if_neg (Ne.symm hr), skip_cpu, register_pc]
  · rw [hflags]
    exact m.cpu.flags.after_kept (some (e.mode.source m))
  · rw [next_of_entry he, e.effect_sp, hi]
  · rw [next_of_entry he, e.effect_pc, Entry.nextPc, hi]
  · rw [hnext]

/-- A load across the end of memory. Its pointer lies in the last and the first cell of the zero
page, and the first one is its operand. -/
def operandInPointer : Machine Memory where
  cpu := { Cpu.initial with pc := 0xFFFF, x := 0x7F }
  bus := .ofFn fun address =>
    if address = 0xFFFF then 0xA1 else if address = 0 then 0x80 else if address = 0xFF then 0x34
    else if address = 0x8034 then 0x90 else 0

theorem operand_in_pointer_load :
    Entry.ofOpcode? (operandInPointer.bus.read operandInPointer.cpu.pc) =
      some ⟨.load .a, .indirectX, 6⟩ ∧
    (⟨.load .a, .indirectX, 6⟩ : Entry).instruction = .load .a ∧
    Loads operandInPointer ⟨.load .a, .indirectX, 6⟩ .a 0x90 := by
  have hread (address : UInt16) : operandInPointer.bus.read address =
      if address = 0xFFFF then 0xA1 else if address = 0 then 0x80 else if address = 0xFF then 0x34
      else if address = 0x8034 then 0x90 else 0 := by
    rw [operandInPointer, Memory.read_ofFn]
  have h : Entry.ofOpcode? (operandInPointer.bus.read operandInPointer.cpu.pc) =
      some ⟨.load .a, .indirectX, 6⟩ := by
    rw [hread]
    rfl
  have hlocation : Mode.indirectX.location operandInPointer = 0x8034 := by
    have hfirst : operandInPointer.bus.read (operandInPointer.cpu.pc + 1) = 0x80 := by
      rw [hread]
      rfl
    have hx : operandInPointer.cpu.x = 0x7F := rfl
    rw [Mode.location, Memory.pointed, Memory.number, hfirst, hx, hread, hread]
    rfl
  have hsource : Mode.indirectX.source operandInPointer = 0x90 := by
    rw [Mode.source, if_neg (by decide), hlocation, hread]
    decide
  have hloads := load_moves_byte operandInPointer _ .a h rfl
  rw [hsource] at hloads
  exact ⟨h, rfl, hloads⟩

theorem store_moves_byte (m : Machine Memory) (e : Entry) (r : Register)
    (h : Entry.ofOpcode? (m.bus.read m.cpu.pc) = some e) (hi : e.instruction = .store r) :
    Stores m e r (e.mode.location m) := by
  have he : m.decoded = some e := h
  have hnext := next_of_store he hi
  constructor
  · exact step_ok_of_entry he
  · intro a
    have hcell : UInt16.ofNat (e.mode.location m) = a ↔ a.toNat = e.mode.location m := by
      rw [← Mode.toNat_cell, UInt16.ofNat_toNat, UInt16.toNat_inj, eq_comm]
    rw [hnext, Memory.read_write]
    simp only [hcell]
  · rw [hnext, skip_cpu]

/-- A store across the end of memory into its own operand, which is its pointer as well. -/
def ownOperandStore : Machine Memory where
  cpu := { Cpu.initial with pc := 0xFFFF, a := 0x42 }
  bus := Memory.zero.write 0xFFFF 0x91

theorem own_operand_stored :
    Entry.ofOpcode? (ownOperandStore.bus.read ownOperandStore.cpu.pc) =
      some ⟨.store .a, .indirectY, 6⟩ ∧
    (⟨.store .a, .indirectY, 6⟩ : Entry).instruction = .store .a ∧
    Stores ownOperandStore ⟨.store .a, .indirectY, 6⟩ .a 0 ∧
    ownOperandStore.bus.read 0 = 0 ∧ ownOperandStore.next.bus.read 0 = 0x42 := by
  have h : Entry.ofOpcode? (ownOperandStore.bus.read ownOperandStore.cpu.pc) =
      some ⟨.store .a, .indirectY, 6⟩ := by
    rw [ownOperandStore, Memory.read_write]
    rfl
  have hlocation : Mode.indirectY.location ownOperandStore = 0 := by
    simp [Mode.location, Memory.pointed, Memory.number, ownOperandStore, Memory.read_write,
      Cpu.initial]
  have hstores := store_moves_byte ownOperandStore _ .a h rfl
  rw [hlocation] at hstores
  refine ⟨h, rfl, hstores, ?_, ?_⟩
  · rw [ownOperandStore, Memory.read_write, if_neg (by decide), Memory.read_zero]
  · rw [hstores.memory]
    rfl

end Machine

end Mos6502
