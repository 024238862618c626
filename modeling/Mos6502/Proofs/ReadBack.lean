import Mos6502.Proofs.Flags
import Mos6502.Proofs.StraightLine
/-!
Reading back. A store and the load that matches it designate the same cell, so the load finds what
the store has put there, whatever its register was used for in between. Only a store that overwrites
what designates the cell, a byte of the load or of its pointer, can spoil that.
-/

namespace Mos6502

namespace Mode

/-- The register that a mode uses as an index. -/
def indexRegister? : Mode → Option Register
  | zeroPageX | absoluteX | indirectX => some .x
  | zeroPageY | absoluteY | indirectY => some .y
  | implicit | immediate | zeroPage | absolute => none

/-- The two cells of the pointer that an indirect mode goes through. -/
def pointerCells (o : Operand) (cpu : Cpu) : Mode → List UInt16
  | indirectX => [(o.low + cpu.x).toUInt16, (o.low + cpu.x + 1).toUInt16]
  | indirectY => [o.low.toUInt16, (o.low + 1).toUInt16]
  | _ => []

/-- Beside the operand bytes only the index and the pointer decide which cell a mode designates. -/
theorem cell_of_agree {mode : Mode} {o : Operand} {m q : Machine Memory}
    (hindex : ∀ r, mode.indexRegister? = some r → q.cpu.register r = m.cpu.register r)
    (hpointer : ∀ a ∈ mode.pointerCells o m.cpu, q.bus.read a = m.bus.read a) :
    mode.cell o q = mode.cell o m := by
  have hpointed {p : UInt8} (hlow : q.bus.read p.toUInt16 = m.bus.read p.toUInt16)
      (hhigh : q.bus.read (p + 1).toUInt16 = m.bus.read (p + 1).toUInt16) :
      Bus.pointer q.bus p = Bus.pointer m.bus p := by
    simp only [Bus.pointer, Memory.bus_read, hlow, hhigh]
  cases mode with
  | implicit | immediate | zeroPage | absolute => rfl
  | zeroPageX | absoluteX =>
    have hx : q.cpu.x = m.cpu.x := hindex .x rfl
    rw [cell, cell, hx]
  | zeroPageY | absoluteY =>
    have hy : q.cpu.y = m.cpu.y := hindex .y rfl
    rw [cell, cell, hy]
  | indirectX =>
    have hx : q.cpu.x = m.cpu.x := hindex .x rfl
    simp only [pointerCells, List.forall_mem_cons] at hpointer
    rw [cell, cell, hx, hpointed hpointer.1 hpointer.2.1]
  | indirectY =>
    have hy : q.cpu.y = m.cpu.y := hindex .y rfl
    simp only [pointerCells, List.forall_mem_cons] at hpointer
    rw [cell, cell, hy, hpointed hpointer.1 hpointer.2.1]

end Mode

namespace Register

/-- The modes in which a register can be stored and loaded as well. -/
def pairedModes : Register → List Mode
  | a => [.zeroPage, .zeroPageX, .absolute, .absoluteX, .absoluteY, .indirectX, .indirectY]
  | x => [.zeroPage, .zeroPageY, .absolute]
  | y => [.zeroPage, .zeroPageX, .absolute]

theorem stores_paired (r : Register) :
    ∀ p ∈ registry, p.2.instruction = .store r → p.2.mode ∈ r.pairedModes := by
  cases r <;> decide

theorem paired_registered (r : Register) : ∀ mode ∈ r.pairedModes,
    ∀ i ∈ [Instruction.store r, .load r], ∃ p ∈ registry,
      Entry.ofOpcode? p.1 = some p.2 ∧ p.2.instruction = i ∧ p.2.mode = mode := by
  cases r <;> decide

/-- A register is never its own index, so that assigning to it does not move the cell. -/
theorem paired_apart (r : Register) :
    ∀ mode ∈ r.pairedModes, mode ≠ .immediate ∧ mode.indexRegister? ≠ some r := by
  cases r <;> decide

end Register

namespace Cpu

theorem register_withRegister {cpu : Cpu} {r r' : Register} (h : r' ≠ r) (v : UInt8) :
    (cpu.withRegister r v).register r' = cpu.register r' := by
  cases r <;> cases r' <;> first | rfl | exact absurd rfl h

end Cpu

/-- A store and the load that undoes it: of one register, in one mode and with the same operand
bytes. -/
structure Matching (r : Register) (mode : Mode) (store load : Line) : Prop where
  stores : store.entry.instruction = .store r
  loads : load.entry.instruction = .load r
  store_mode : store.entry.mode = mode
  load_mode : load.entry.mode = mode
  operands : load.operands = store.operands

/-- An instruction of the registry with some operand bytes, all zero. -/
theorem exists_line {i : Instruction} {mode : Mode} (hi : i ≠ .jsr ∧ i ≠ .rts)
    (h : ∃ p ∈ registry, Entry.ofOpcode? p.1 = some p.2 ∧ p.2.instruction = i ∧ p.2.mode = mode) :
    ∃ line : Line, line.entry.instruction = i ∧ line.entry.mode = mode ∧
      line.operands = List.replicate mode.operandBytes 0 := by
  obtain ⟨⟨opcode, e⟩, -, hregistered, rfl, rfl⟩ := h
  exact ⟨⟨opcode, e, List.replicate e.mode.operandBytes 0, hregistered, hi, by simp⟩, rfl, rfl, rfl⟩

theorem mem_pairedModes_iff {r : Register} {mode : Mode} :
    mode ∈ r.pairedModes ↔ ∃ store load, Matching r mode store load := by
  constructor
  · intro h
    obtain ⟨store, hstore, hsmode, hsbytes⟩ := exists_line (i := .store r) (by simp)
      (r.paired_registered mode h _ (by simp))
    obtain ⟨load, hload, hlmode, hlbytes⟩ := exists_line (i := .load r) (by simp)
      (r.paired_registered mode h _ (by simp))
    exact ⟨store, load, hstore, hload, hsmode, hlmode, hlbytes.trans hsbytes.symm⟩
  · rintro ⟨store, load, h⟩
    rw [← h.store_mode]
    exact r.stores_paired _ (Entry.mem_registry store.registered) h.stores

namespace Machine

def assign (m : Machine Memory) (r : Register) (v : UInt8) : Machine Memory :=
  { m with cpu := m.cpu.withRegister r v }

/-- A store lies at the program counter and a load right behind it. The store's cell is no byte of
the load, and none of the pointer if its mode goes through one. -/
structure ReadyToReadBack (m : Machine Memory) (store load : Line) : Prop where
  held : m.bus.Holds m.cpu.pc (Line.code [store, load])
  code_spared : store.entry.mode.cell store.operand m ∉
    addresses (m.cpu.pc + .ofNat store.entry.size) load.entry.size
  pointer_spared : store.entry.mode.cell store.operand m ∉
    store.entry.mode.pointerCells store.operand m.cpu

/-- The next step completes, and so does a step that is made after some intervention. They come to a
machine that has the register's byte again, with Z and N telling of it. What else has changed is the
program counter and what the first step has done to memory. -/
structure ReadsBack (m intervened : Machine Memory) (r : Register) : Prop where
  stores : m.step.value = .ok m.step.cost
  loads : intervened.step.value = .ok intervened.step.cost
  registers : ∀ r', intervened.next.cpu.register r' = m.cpu.register r'
  sp : intervened.next.cpu.sp = m.cpu.sp
  zero : intervened.next.cpu.flags.z = true ↔ m.cpu.register r = 0
  negative : intervened.next.cpu.flags.n = true ↔ (m.cpu.register r).toNat.testBit 7 = true
  flags : let f := intervened.next.cpu.flags
    f.c = m.cpu.flags.c ∧ f.i = m.cpu.flags.i ∧ f.d = m.cpu.flags.d ∧ f.b = m.cpu.flags.b ∧
      f.v = m.cpu.flags.v
  memory : intervened.next.bus = m.next.bus

theorem next_of_store_line {m : Machine Memory} {store : Line} {r : Register}
    (hi : store.entry.instruction = .store r) (hheld : m.bus.Holds m.cpu.pc store.bytes) :
    m.next = ⟨(m.skip (.ofNat store.entry.size)).cpu,
      m.bus.write (store.entry.mode.cell store.operand m) (m.cpu.register r)⟩ := by
  rw [(store.next_of_holds hheld).2, Line.apply_of_store hi]
  rfl

theorem next_of_load_line {m : Machine Memory} {load : Line} {r : Register}
    (hi : load.entry.instruction = .load r) (hheld : m.bus.Holds m.cpu.pc load.bytes) :
    m.next = ⟨(m.skip (.ofNat load.entry.size)).cpu.load r
      (load.entry.mode.value load.operand m), m.bus⟩ := by
  rw [(load.next_of_holds hheld).2, Line.apply_of_load hi]
  cases r <;> rfl

section

variable {m : Machine Memory} {r : Register} {mode : Mode} {store load : Line}

theorem ReadyToReadBack.held_apart (h : m.ReadyToReadBack store load) :
    m.bus.Holds m.cpu.pc store.bytes ∧
      m.bus.Holds (m.cpu.pc + .ofNat store.entry.size) load.bytes := by
  have hheld := h.held
  rw [Line.code_cons, Memory.holds_append, store.length_bytes] at hheld
  simpa [Line.code] using hheld

theorem assigned_of_matching (hmatch : Matching r mode store load)
    (hready : m.ReadyToReadBack store load) (v : UInt8) :
    m.next.assign r v = ⟨(m.skip (.ofNat store.entry.size)).cpu.withRegister r v,
      m.bus.write (store.entry.mode.cell store.operand m) (m.cpu.register r)⟩ := by
  rw [assign, next_of_store_line hmatch.stores hready.held_apart.1]

/-- The load is still there, and it is next. -/
theorem load_next (hmatch : Matching r mode store load) (hready : m.ReadyToReadBack store load)
    (v : UInt8) : (m.next.assign r v).bus.Holds (m.next.assign r v).cpu.pc load.bytes := by
  have hpc : (m.next.assign r v).cpu.pc = m.cpu.pc + .ofNat store.entry.size := by
    rw [assigned_of_matching hmatch hready]
    cases r <;> rfl
  rw [hpc, assigned_of_matching hmatch hready]
  apply Memory.holds_write hready.held_apart.2
  rw [load.length_bytes]
  exact hready.code_spared

/-- Neither the store nor the assignment has moved the cell. -/
theorem load_cell (hmatch : Matching r mode store load) (hready : m.ReadyToReadBack store load)
    (v : UInt8) : load.entry.mode.cell load.operand (m.next.assign r v) =
      store.entry.mode.cell store.operand m := by
  have hmode : load.entry.mode = store.entry.mode := hmatch.load_mode.trans hmatch.store_mode.symm
  have hoperand : load.operand = store.operand := by
    rw [Line.operand, Line.operand, hmatch.operands]
  have hindex : store.entry.mode.indexRegister? ≠ some r := by
    rw [hmatch.store_mode]
    exact (r.paired_apart mode (mem_pairedModes_iff.mpr ⟨store, load, hmatch⟩)).2
  rw [hmode, hoperand, assigned_of_matching hmatch hready]
  apply Mode.cell_of_agree
  · intro r' hr'
    have hne : r' ≠ r := by
      rintro rfl
      exact hindex hr'
    rw [Cpu.register_withRegister hne, skip_cpu, register_pc]
  · intro a ha
    have hne : store.entry.mode.cell store.operand m ≠ a := by
      rintro rfl
      exact hready.pointer_spared ha
    rw [Memory.read_write, if_neg hne]

theorem next_of_matching (hmatch : Matching r mode store load)
    (hready : m.ReadyToReadBack store load) (v : UInt8) :
    (m.next.assign r v).next =
      ⟨{ m.cpu with
          pc := m.cpu.pc + .ofNat store.entry.size + .ofNat load.entry.size
          flags := m.cpu.flags.telling (m.cpu.register r) }, m.next.bus⟩ := by
  have hmode : load.entry.mode ≠ .immediate := by
    rw [hmatch.load_mode]
    exact (r.paired_apart mode (mem_pairedModes_iff.mpr ⟨store, load, hmatch⟩)).1
  have hvalue : load.entry.mode.value load.operand (m.next.assign r v) = m.cpu.register r := by
    rw [Mode.value_of_cell hmode, load_cell hmatch hready, assigned_of_matching hmatch hready,
      Memory.bus_read, Memory.read_write, if_pos rfl]
  rw [next_of_load_line hmatch.loads (load_next hmatch hready v), hvalue, assign,
    next_of_store_line hmatch.stores hready.held_apart.1]
  cases r <;> rfl

end

/-- What a register's loads and stores in one mode have to do with each other. -/
structure LoadUndoesStore (r : Register) (mode : Mode) : Prop where
  paired : mode ∈ r.pairedModes ↔ ∃ store load, Matching r mode store load
  undone : ∀ store load, Matching r mode store load →
    ∀ m : Machine Memory, m.ReadyToReadBack store load → ∀ v, ReadsBack m (m.next.assign r v) r

/-- A store through a pointer and the load that matches it, across the end of memory. -/
def storeThroughPointer : Line := ⟨0x91, ⟨.store .a, .indirectY, 6⟩, [0xFF], rfl, by decide, rfl⟩

def loadThroughPointer : Line := ⟨0xB1, ⟨.load .a, .indirectY, 5⟩, [0xFF], rfl, by decide, rfl⟩

/-- The load's opcode is the high byte of the pointer as well. -/
def acrossEnd : Machine Memory where
  cpu := { Cpu.initial with pc := 0xFFFE, a := 0x80, y := 1 }
  bus := .ofFn fun address =>
    if address = 0xFFFE then 0x91 else if address = 0xFFFF then 0xFF
    else if address = 0 then 0xB1 else if address = 1 then 0xFF
    else if address = 0xFF then 0x34 else 0

end Machine

end Mos6502
