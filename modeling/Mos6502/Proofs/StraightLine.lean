import Mos6502.Proofs.Budget
import Mos6502.Proofs.Flags
import Mos6502.Proofs.Loading
/-!
Straight-line programs. A list of loads, stores and NOPs has a meaning of its own, which knows
nothing of a program counter: each instruction in turn moves a byte between a register and the cell
that its mode designates. `straight_line_run` says that a machine with the list's bytes in front of
it comes to this meaning, as long as no store hits an instruction that is still to come.
-/

namespace Mos6502

/-- The bytes of an operand that an instruction has. -/
def Operand.bytes (o : Operand) (count : ℕ) : List UInt8 := [o.low, o.high].take count

namespace Mode

variable {β : Type} [Bus β]

theorem operandBytes_le (mode : Mode) : mode.operandBytes ≤ 2 := by
  cases mode <;> decide

theorem cell_congr (mode : Mode) {o o' : Operand}
    (h : o.bytes mode.operandBytes = o'.bytes mode.operandBytes) (m : Machine β) :
    mode.cell o m = mode.cell o' m := by
  obtain ⟨low, high⟩ := o
  obtain ⟨low', high'⟩ := o'
  cases mode with
  | implicit => rfl
  | immediate => rfl
  | absolute | absoluteX | absoluteY =>
    obtain ⟨rfl, rfl⟩ : low = low' ∧ high = high' := by simpa [Operand.bytes, operandBytes] using h
    rfl
  | zeroPage | zeroPageX | zeroPageY | indirectX | indirectY =>
    obtain rfl : low = low' := by simpa [Operand.bytes, operandBytes] using h
    rfl

theorem value_congr (mode : Mode) {o o' : Operand}
    (h : o.bytes mode.operandBytes = o'.bytes mode.operandBytes) (m : Machine β) :
    mode.value o m = mode.value o' m := by
  by_cases hi : mode = .immediate
  · subst hi
    have hlow : o.low = o'.low := by simpa [Operand.bytes, operandBytes] using h
    exact hlow
  · rw [value_of_cell hi, value_of_cell hi, mode.cell_congr h]

theorem cell_skip (mode : Mode) (o : Operand) (m : Machine β) (offset : UInt16) :
    mode.cell o (m.skip offset) = mode.cell o m := by
  cases mode <;> rfl

theorem value_skip (mode : Mode) (o : Operand) (m : Machine β) (offset : UInt16) :
    mode.value o (m.skip offset) = mode.value o m := by
  by_cases hi : mode = .immediate
  · subst hi
    rfl
  · rw [value_of_cell hi, value_of_cell hi, cell_skip, Machine.skip_bus]

end Mode

/-- An instruction of a straight-line program: a load, a store or a NOP with its operand bytes. -/
structure Line where
  opcode : UInt8
  entry : Entry
  operands : List UInt8
  registered : Entry.ofOpcode? opcode = some entry
  straight : entry.instruction ≠ .jsr ∧ entry.instruction ≠ .rts
  complete : operands.length = entry.mode.operandBytes

namespace Line

def bytes (i : Line) : List UInt8 := i.opcode :: i.operands

def operand (i : Line) : Operand := ⟨i.operands.getD 0 0, i.operands.getD 1 0⟩

/-- What the instruction does to registers, flags and memory. A load sets its register, Z and N, and
a store its cell. -/
def apply (i : Line) (m : Machine Memory) : Machine Memory :=
  let v := i.entry.mode.value i.operand m
  let flags := { m.cpu.flags with z := v = 0, n := v.toNat.testBit 7 }
  let cell := i.entry.mode.cell i.operand m
  match i.entry.instruction with
  | .load .a => { m with cpu := { m.cpu with a := v, flags } }
  | .load .x => { m with cpu := { m.cpu with x := v, flags } }
  | .load .y => { m with cpu := { m.cpu with y := v, flags } }
  | .store .a => { m with bus := m.bus.write cell m.cpu.a }
  | .store .x => { m with bus := m.bus.write cell m.cpu.x }
  | .store .y => { m with bus := m.bus.write cell m.cpu.y }
  | _ => m

/-- The bytes of a program, one instruction after the other. -/
def code (program : List Line) : List UInt8 := program.flatMap bytes

theorem length_bytes (i : Line) : i.bytes.length = i.entry.size := by
  rw [bytes, List.length_cons, i.complete, Entry.size, Nat.add_comm]

theorem code_cons (i : Line) (later : List Line) : code (i :: later) = i.bytes ++ code later := rfl

theorem length_le_code (program : List Line) : program.length ≤ (code program).length := by
  induction program with
  | nil => exact Nat.le_refl 0
  | cons i later ih =>
    rw [code_cons, List.length_append, i.length_bytes, Entry.size, List.length_cons]
    omega

theorem bytes_operand (i : Line) : i.operand.bytes i.entry.mode.operandBytes = i.operands := by
  have hle := i.entry.mode.operandBytes_le
  rw [← i.complete] at hle ⊢
  rw [operand]
  match i.operands, hle with
  | [], _ => rfl
  | [_], _ => rfl
  | [_, _], _ => rfl

/-- The processor's way to load comes to the same. -/
theorem apply_of_load {i : Line} {r : Register} (h : i.entry.instruction = .load r)
    (m : Machine Memory) :
    i.apply m = { m with cpu := m.cpu.load r (i.entry.mode.value i.operand m) } := by
  have hflags := m.cpu.flags.telling_eq (i.entry.mode.value i.operand m)
  unfold apply
  cases r <;> simp only [h, ← hflags] <;> rfl

theorem apply_of_store {i : Line} {r : Register} (h : i.entry.instruction = .store r)
    (m : Machine Memory) : i.apply m =
      { m with bus := m.bus.write (i.entry.mode.cell i.operand m) (m.cpu.register r) } := by
  unfold apply
  cases r <;> simp only [h] <;> rfl

theorem apply_of_nop {i : Line} (h : i.entry.instruction = .nop) (m : Machine Memory) :
    i.apply m = m := by
  unfold apply
  simp only [h]

theorem load_store_or_nop (i : Line) : (∃ r, i.entry.instruction = .load r) ∨
    (∃ r, i.entry.instruction = .store r) ∨ i.entry.instruction = .nop := by
  cases hi : i.entry.instruction with
  | load r => exact Or.inl ⟨r, rfl⟩
  | store r => exact Or.inr (Or.inl ⟨r, rfl⟩)
  | jsr => exact absurd hi i.straight.1
  | rts => exact absurd hi i.straight.2
  | nop => exact Or.inr (Or.inr rfl)

theorem apply_pointers (i : Line) (m : Machine Memory) :
    (i.apply m).cpu.pc = m.cpu.pc ∧ (i.apply m).cpu.sp = m.cpu.sp := by
  obtain ⟨r, hi⟩ | ⟨r, hi⟩ | hi := i.load_store_or_nop
  · rw [apply_of_load hi]
    cases r <;> exact ⟨rfl, rfl⟩
  · rw [apply_of_store hi]
    exact ⟨rfl, rfl⟩
  · rw [apply_of_nop hi]
    exact ⟨rfl, rfl⟩

/-- The meaning of an instruction does not depend on where it lies. -/
theorem apply_skip (i : Line) (m : Machine Memory) (offset : UInt16) :
    i.apply (m.skip offset) = (i.apply m).skip offset := by
  obtain ⟨r, hi⟩ | ⟨r, hi⟩ | hi := i.load_store_or_nop
  · rw [apply_of_load hi, apply_of_load hi, Mode.value_skip]
    cases r <;> rfl
  · rw [apply_of_store hi, apply_of_store hi, Mode.cell_skip]
    cases r <;> rfl
  · rw [apply_of_nop hi, apply_of_nop hi]

theorem effect_eq_apply (i : Line) {m : Machine Memory}
    (h : m.operand.bytes i.entry.mode.operandBytes = i.operands) :
    i.entry.effect m.operand m = (i.apply m).skip (.ofNat i.entry.size) := by
  rw [← i.bytes_operand] at h
  obtain ⟨r, hi⟩ | ⟨r, hi⟩ | hi := i.load_store_or_nop
  · rw [apply_of_load hi, Entry.effect, hi, ← Mode.value_congr _ h]
    cases r <;> rfl
  · rw [apply_of_store hi, Entry.effect, hi, ← Mode.cell_congr _ h]
    rfl
  · rw [apply_of_nop hi, Entry.effect, hi]

theorem operand_of_holds {m : Machine Memory} {bytes : List UInt8}
    (h : m.bus.Holds (m.cpu.pc + 1) bytes) (hle : bytes.length ≤ 2) :
    m.operand.bytes bytes.length = bytes := by
  match bytes, hle with
  | [], _ => rfl
  | [low], _ =>
    obtain ⟨rfl, -⟩ := h
    rfl
  | [low, high], _ =>
    obtain ⟨rfl, rfl, -⟩ := h
    rw [UInt16.add_assoc]
    rfl

theorem next_of_holds (i : Line) {m : Machine Memory} (h : m.bus.Holds m.cpu.pc i.bytes) :
    m.step.value = .ok m.step.cost ∧ m.next = (i.apply m).skip (.ofNat i.entry.size) := by
  have hd : m.decoded = some i.entry := by
    rw [Machine.decoded, Machine.opcode, Memory.bus_read, h.1, i.registered]
  have ho : m.operand.bytes i.entry.mode.operandBytes = i.operands := by
    have hle := i.entry.mode.operandBytes_le
    rw [← i.complete] at hle ⊢
    exact operand_of_holds h.2 hle
  constructor
  · exact Machine.step_ok_of_entry hd
  · rw [Machine.next_of_entry hd, i.effect_eq_apply ho]

theorem holds_apply (i : Line) {m : Machine Memory} {start : UInt16} {bytes : List UInt8}
    (h : m.bus.Holds start bytes)
    (hs : i.entry.instruction.isStore →
      i.entry.mode.cell i.operand m ∉ addresses start bytes.length) :
    (i.apply m).bus.Holds start bytes := by
  obtain ⟨r, hi⟩ | ⟨r, hi⟩ | hi := i.load_store_or_nop
  · rw [apply_of_load hi]
    exact h
  · rw [apply_of_store hi]
    apply Memory.holds_write h
    apply hs
    rw [hi]
    rfl
  · rw [apply_of_nop hi]
    exact h

end Line

namespace Machine

open Line (code)

/-- What a program comes to, its instructions taken in order. -/
def afterLines (m : Machine Memory) (program : List Line) : Machine Memory :=
  program.foldl (fun m i => i.apply m) m

/-- No store of the program, whose code begins at `start`, hits the code behind it. -/
def SparesLater (start : UInt16) (m : Machine Memory) : List Line → Prop
  | [] => True
  | i :: later =>
    (i.entry.instruction.isStore →
      i.entry.mode.cell i.operand m ∉
        addresses (start + .ofNat i.entry.size) (code later).length) ∧
      SparesLater (start + .ofNat i.entry.size) (i.apply m) later

theorem afterLines_skip (m : Machine Memory) (program : List Line) (offset : UInt16) :
    (m.skip offset).afterLines program = (m.afterLines program).skip offset := by
  induction program generalizing m with
  | nil => rfl
  | cons i later ih =>
    simp only [afterLines, List.foldl_cons, Line.apply_skip] at ih ⊢
    exact ih (i.apply m)

theorem afterLines_pointers (m : Machine Memory) (program : List Line) :
    (m.afterLines program).cpu.pc = m.cpu.pc ∧ (m.afterLines program).cpu.sp = m.cpu.sp := by
  induction program generalizing m with
  | nil => exact ⟨rfl, rfl⟩
  | cons i later ih =>
    obtain ⟨hpc, hsp⟩ := i.apply_pointers m
    obtain ⟨hpc', hsp'⟩ := ih (i.apply m)
    exact ⟨hpc'.trans hpc, hsp'.trans hsp⟩

theorem sparesLater_skip {m : Machine Memory} {start offset : UInt16} {program : List Line}
    (h : SparesLater start m program) : SparesLater start (m.skip offset) program := by
  induction program generalizing m start with
  | nil => trivial
  | cons i later ih =>
    constructor
    · rw [Mode.cell_skip]
      exact h.1
    · rw [Line.apply_skip]
      exact ih h.2

theorem stepped_lines {m : Machine Memory} {program : List Line}
    (hheld : m.bus.Holds m.cpu.pc (code program)) (hspared : SparesLater m.cpu.pc m program) :
    m.Completes program.length ∧
      m.stepped program.length = (m.afterLines program).skip (.ofNat (code program).length) := by
  induction program generalizing m with
  | nil =>
    constructor
    · exact completes_zero m
    · simp [afterLines, code, skip]
  | cons i later ih =>
    rw [Line.code_cons, Memory.holds_append, i.length_bytes] at hheld
    obtain ⟨hv, hnext⟩ := i.next_of_holds hheld.1
    -- the rest of the program is run from the next machine, which has it in front of it untouched
    have hpc : m.next.cpu.pc = m.cpu.pc + .ofNat i.entry.size := by
      rw [hnext, skip_cpu, (i.apply_pointers m).1]
    have hlater : m.next.bus.Holds m.next.cpu.pc (code later) := by
      rw [hpc, hnext, skip_bus]
      exact i.holds_apply hheld.2 hspared.1
    have hrest : SparesLater m.next.cpu.pc m.next later := by
      rw [hpc, hnext]
      exact sparesLater_skip hspared.2
    obtain ⟨hc, hs⟩ := ih hlater hrest
    constructor
    · exact completes_next.mpr ⟨hv, hc⟩
    · rw [List.length_cons, ← stepped_next, hs, hnext, afterLines_skip, skip_skip,
        Line.code_cons, List.length_append, i.length_bytes, UInt16.ofNat_add]
      rfl

/-- A machine that runs a program to its end and comes to the program's meaning. -/
structure RunsAsListed (m : Machine Memory) (program : List Line) : Prop where
  completes : m.Completes program.length
  registers : (m.stepped program.length).cpu =
    { (m.afterLines program).cpu with
      pc := m.cpu.pc + .ofNat (code program).length
      sp := m.cpu.sp }
  memory : (m.stepped program.length).bus = (m.afterLines program).bus
  budget : (Int32.ofNat (m.spent program.length)).toInt = m.spent program.length
  execute : m.execute (.ofNat (m.spent program.length)) =
    ⟨.ok (m.spent program.length), m.stepped program.length, m.history program.length⟩

theorem straight_line_run (m : Machine Memory) (program : List Line)
    (hsize : (code program).length ≤ 65536) (hheld : m.bus.Holds m.cpu.pc (code program))
    (hspared : SparesLater m.cpu.pc m program) : RunsAsListed m program := by
  obtain ⟨hc, hs⟩ := stepped_lines hheld hspared
  have hspent : m.spent program.length ≤ countLimit := by
    have hlimit : countLimit = 2147483647 := rfl
    have hlength := Line.length_le_code program
    have hbound := (spent_bounds hc).2
    omega
  obtain ⟨hbudget, hexec⟩ := execute_spent hc hspent
  constructor
  · exact hc
  · obtain ⟨hpc, hsp⟩ := m.afterLines_pointers program
    rw [hs, skip_cpu, ← hpc, ← hsp]
  · rw [hs, skip_bus]
  · exact hbudget
  · exact hexec

/-- A program that overwrites its own first byte and reads it back. -/
def selfWriting : List Line :=
  [⟨0xA9, ⟨.load .a, .immediate, 2⟩, [0x80], rfl, by decide, rfl⟩,
    ⟨0x8D, ⟨.store .a, .absolute, 4⟩, [0xFB, 0xFF], rfl, by decide, rfl⟩,
    ⟨0xAE, ⟨.load .x, .absolute, 4⟩, [0xFB, 0xFF], rfl, by decide, rfl⟩]

/-- The program lies across the end of memory. -/
def selfWriter : Machine Memory where
  cpu := { Cpu.initial with pc := 0xFFFB }
  bus := Memory.zero.load 0xFFFB (code selfWriting)

theorem self_writer_runs_as_listed :
    (code selfWriting).length ≤ 65536 ∧
    selfWriter.bus.Holds selfWriter.cpu.pc (code selfWriting) ∧
    SparesLater selfWriter.cpu.pc selfWriter selfWriting ∧
    RunsAsListed selfWriter selfWriting ∧
    (selfWriter.stepped 3).cpu.x = 0x80 ∧ (selfWriter.stepped 3).cpu.pc = 3 ∧
    (selfWriter.stepped 3).cpu.flags.n = true ∧ (selfWriter.stepped 3).cpu.flags.z = false := by
  have hsize : (code selfWriting).length ≤ 65536 := by decide
  have hheld : selfWriter.bus.Holds selfWriter.cpu.pc (code selfWriting) := by
    simp [selfWriter, selfWriting, code, Line.bytes, Memory.load, Memory.Holds, Memory.read_write]
  have hspared : SparesLater selfWriter.cpu.pc selfWriter selfWriting := by
    refine ⟨?_, ?_, ?_, trivial⟩
    · decide
    · decide
    · decide
  have hlast : (selfWriter.afterLines selfWriting).cpu =
      { selfWriter.cpu with a := 0x80, x := 0x80, flags := { n := true } } := by
    have hclear : selfWriter.cpu.flags = {} := rfl
    have hbit : Nat.testBit 0x80 7 = true := rfl
    simp [afterLines, selfWriting, Line.apply, Line.operand, Mode.value, Mode.cell, Operand.word,
      Memory.read_write, hclear, hbit]
  have hruns := straight_line_run selfWriter selfWriting hsize hheld hspared
  have hregisters : (selfWriter.stepped 3).cpu = _ := hruns.registers
  rw [hlast] at hregisters
  refine ⟨hsize, hheld, hspared, hruns, ?_⟩
  rw [hregisters]
  exact ⟨rfl, by decide, rfl, rfl⟩

end Machine

end Mos6502
