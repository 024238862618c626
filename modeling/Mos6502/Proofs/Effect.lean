import Mos6502.Machine.Execute
import Mos6502.Memory.Basic
import Mos6502.Proofs.Addressing
/-!
What one instruction does. `Entry.effect` and `Entry.cycles` give the machine that a registered
instruction leaves and the cycles it takes; `step_of_entry` and `step_of_unknown` are all that a
step can do, so nothing after them looks inside an instruction's program.
-/

namespace Mos6502

variable {β : Type} [Bus β]

def Instruction.isLoad : Instruction → Bool
  | .load _ => true
  | _ => false

def Instruction.isStore : Instruction → Bool
  | .store _ => true
  | _ => false

namespace Entry

/-- The machine after an instruction whose operand bytes are given. -/
def effect (e : Entry) (o : Operand) (m : Machine β) : Machine β :=
  match e.instruction with
  | .load r => { m with cpu := (m.skip (.ofNat e.size)).cpu.load r (e.mode.value o m) }
  | .store r =>
    ⟨(m.skip (.ofNat e.size)).cpu, Bus.write m.bus (e.mode.cell o m) (m.cpu.register r)⟩
  | .jsr =>
    ⟨{ m.cpu with pc := o.word, sp := m.cpu.sp - 2 },
      Bus.writeWord m.bus m.cpu.sp.toUInt16 (m.cpu.pc + 2)⟩
  | .rts =>
    { m with cpu := { m.cpu with
      pc := Bus.wordAt m.bus (m.cpu.sp + 2).toUInt16 + 1
      sp := m.cpu.sp + 2 } }
  | .nop => m.skip (.ofNat e.size)

def work (e : Entry) (m : Machine β) : List Cycle :=
  match e.instruction with
  | .load _ => e.mode.reading m
  | .store r =>
    e.mode.finding .always m ++ [.write (e.mode.cell m.operand m) (m.cpu.register r)]
  | .jsr =>
    [m.fetch 1, m.fetch 2,
      .write m.cpu.sp.toUInt16 (Word.low (m.cpu.pc + 2)),
      .write (m.cpu.sp.toUInt16 + 1) (Word.high (m.cpu.pc + 2)), .internal]
  | .rts =>
    [.internal, Bus.peek m.bus (m.cpu.sp + 2).toUInt16,
      Bus.peek m.bus ((m.cpu.sp + 2).toUInt16 + 1), .internal, .internal]
  | .nop => [.internal]

def cycles (e : Entry) (m : Machine β) : List Cycle := m.fetch 0 :: e.work m

/-- The cells that an instruction writes. -/
def writes (e : Entry) (o : Operand) (m : Machine β) : List UInt16 :=
  match e.instruction with
  | .store _ => [e.mode.cell o m]
  | .jsr => [m.cpu.sp.toUInt16, m.cpu.sp.toUInt16 + 1]
  | _ => []

theorem effect_read (e : Entry) (o : Operand) (m : Machine Memory) {a : UInt16}
    (ha : a ∉ e.writes o m) : (e.effect o m).bus.read a = m.bus.read a := by
  unfold effect
  unfold writes at ha
  cases he : e.instruction with
  | load => rfl
  | store =>
    simp only [he, List.mem_singleton] at ha
    simp only [Memory.bus_write, Memory.read_write, if_neg (Ne.symm ha)]
  | jsr =>
    simp only [he, List.mem_cons, List.not_mem_nil, or_false, not_or] at ha
    simp only [Bus.writeWord, Memory.bus_write, Memory.read_write, if_neg (Ne.symm ha.1),
      if_neg (Ne.symm ha.2)]
  | rts => rfl
  | nop => rfl

theorem effect_sp (e : Entry) (o : Operand) (m : Machine β) :
    (e.effect o m).cpu.sp = match e.instruction with
      | .jsr => m.cpu.sp - 2
      | .rts => m.cpu.sp + 2
      | _ => m.cpu.sp := by
  unfold effect
  cases e.instruction with
  | load r => cases r <;> rfl
  | store => rfl
  | jsr => rfl
  | rts => rfl
  | nop => rfl

theorem mem_registry {opcode : UInt8} {e : Entry} (h : ofOpcode? opcode = some e) :
    (opcode, e) ∈ registry := by
  obtain ⟨before, after, hr, -⟩ := List.lookup_eq_some_iff.mp h
  rw [hr]
  exact List.mem_append_right _ List.mem_cons_self

theorem registry_supported : ∀ p ∈ registry, (p.2.instruction.program? p.2.mode).isSome := by
  decide

end Entry

namespace Machine

def opcode (m : Machine β) : UInt8 := Bus.read m.bus m.cpu.pc

def decoded (m : Machine β) : Option Entry := Entry.ofOpcode? m.opcode

def nextInstruction (m : Machine β) : Option Instruction := m.decoded.map fun e => e.instruction

theorem nextInstruction_of_entry {m : Machine β} {e : Entry} (he : m.decoded = some e) :
    m.nextInstruction = some e.instruction := by
  rw [nextInstruction, he, Option.map_some]

theorem register_pc (cpu : Cpu) (pc : UInt16) (r : Register) :
    ({ cpu with pc } : Cpu).register r = cpu.register r := by
  cases r <;> rfl

theorem fetch_zero (m : Machine β) : m.fetch 0 = .read m.cpu.pc m.opcode := by
  simp [fetch, byteAt, opcode]

theorem run_load (m : Machine β) {e : Entry} {r : Register} {p : CpuM UInt8}
    (he : e.instruction = .load r) (hp : e.mode.operand? = some p) :
    (m.skip 1).run (CpuM.load r p) = ⟨(), e.effect m.operand m, e.work m⟩ := by
  simp [CpuM.load, run_bind, run_operand m hp, Entry.effect, Entry.work, he, Entry.size,
    Outcome.after]

theorem run_store (m : Machine β) {e : Entry} {r : Register} {p : CpuM UInt16}
    (he : e.instruction = .store r) (hp : e.mode.address? .always = some p) :
    (m.skip 1).run (CpuM.store r p) = ⟨(), e.effect m.operand m, e.work m⟩ := by
  simp [CpuM.store, run_bind, run_address m hp, Entry.effect, Entry.work, he, Entry.size,
    register_pc, Outcome.after]

theorem run_jsr (m : Machine β) {e : Entry} (he : e.instruction = .jsr) :
    (m.skip 1).run CpuM.jsr = ⟨(), e.effect m.operand m, e.work m⟩ := by
  have hpc : m.cpu.pc + 3 - 1 = m.cpu.pc + 2 := by grind
  simp [CpuM.jsr, run_bind, run_fetchWord, CpuM.writeWord, Entry.effect, Entry.work, he,
    Bus.writeWord, hpc, Outcome.after]

theorem run_rts (m : Machine β) {e : Entry} (he : e.instruction = .rts) :
    (m.skip 1).run CpuM.rts = ⟨(), e.effect m.operand m, e.work m⟩ := by
  simp [CpuM.rts, run_bind, run_readWord, Entry.effect, Entry.work, he, Outcome.after]

theorem run_nop (m : Machine β) {e : Entry} (he : e.instruction = .nop) (hm : e.mode = .implicit) :
    (m.skip 1).run CpuM.tick = ⟨(), e.effect m.operand m, e.work m⟩ := by
  simp [Entry.effect, Entry.work, he, Entry.size, hm, Mode.operandBytes]

theorem run_program (m : Machine β) {e : Entry} {p : CpuM Unit}
    (hp : e.instruction.program? e.mode = some p) :
    (m.skip 1).run p = ⟨(), e.effect m.operand m, e.work m⟩ := by
  cases he : e.instruction with
  | load r =>
    rw [he] at hp
    obtain ⟨q, hq, rfl⟩ := Option.map_eq_some_iff.mp hp
    exact run_load m he hq
  | store r =>
    rw [he] at hp
    obtain ⟨q, hq, rfl⟩ := Option.map_eq_some_iff.mp hp
    exact run_store m he hq
  | jsr =>
    rw [he, Instruction.program?] at hp
    split at hp
    · cases hp; exact run_jsr m he
    · cases hp
  | rts =>
    rw [he, Instruction.program?] at hp
    split at hp
    · cases hp; exact run_rts m he
    · cases hp
  | nop =>
    rw [he, Instruction.program?] at hp
    split at hp
    · next hm => cases hp; exact run_nop m he hm
    · cases hp

theorem step_eq_run (m : Machine β) :
    m.step = ⟨(m.run CpuM.instruction).value.map fun _ => (m.run CpuM.instruction).cost,
      (m.run CpuM.instruction).state, (m.run CpuM.instruction).timeline⟩ := by
  unfold step
  split
  · next h => rw [h]; rfl
  · next h => rw [h]; rfl

theorem run_instruction_ok (m : Machine β) {p : CpuM Unit}
    (hd : decode m.opcode m.cpu.pc = .ok p) :
    m.run CpuM.instruction =
      ⟨.ok (), ((m.skip 1).run p).state, m.fetch 0 :: ((m.skip 1).run p).timeline⟩ := by
  rw [opcode] at hd
  simp [CpuM.instruction, run_bind, run_map, hd, fetch_zero, opcode, skip, Outcome.after]

theorem run_instruction_error (m : Machine β) {fault : Fault}
    (hd : decode m.opcode m.cpu.pc = .error fault) :
    m.run CpuM.instruction = ⟨.error fault, m, [m.fetch 0]⟩ := by
  rw [opcode] at hd
  simp [CpuM.instruction, run_bind, hd, fetch_zero, opcode, Outcome.after]

/-- A registered instruction always completes. -/
theorem step_of_entry {m : Machine β} {e : Entry} (h : m.decoded = some e) :
    m.step = ⟨.ok (e.cycles m).length, e.effect m.operand m, e.cycles m⟩ := by
  obtain ⟨p, hp⟩ := Option.isSome_iff_exists.mp
    (Entry.registry_supported _ (Entry.mem_registry h))
  have hd : decode m.opcode m.cpu.pc = .ok p := by
    rw [decoded] at h
    simp only [decode, h, hp]
  have hr := run_instruction_ok m hd
  rw [run_program m hp] at hr
  simp only [step, hr, Entry.cycles]

/-- Any other byte stops the machine where it stands. -/
theorem step_of_unknown {m : Machine β} (h : m.decoded = none) :
    m.step = ⟨.error (.unknownOpcode m.opcode m.cpu.pc), m, [m.fetch 0]⟩ := by
  have hd : decode m.opcode m.cpu.pc = .error (.unknownOpcode m.opcode m.cpu.pc) := by
    rw [decoded] at h
    simp only [decode, h]
  simp only [step, run_instruction_error m hd]

theorem step_value_cost {m : Machine β} {cost : Nat} (h : m.step.value = .ok cost) :
    cost = m.step.cost := by
  cases hd : m.decoded with
  | none => rw [step_of_unknown hd] at h; cases h
  | some e => rw [step_of_entry hd] at h ⊢; cases h; rfl

theorem step_ok_of_entry {m : Machine β} {e : Entry} (h : m.decoded = some e) :
    m.step.value = .ok m.step.cost := by
  rw [step_of_entry h]
  rfl

/-- A step that fails names the byte it stops at; it has fetched that byte and done nothing. -/
theorem step_of_error {m : Machine β} {fault : Fault} (h : m.step.value = .error fault) :
    m.decoded = none ∧ m.step = ⟨.error fault, m, [m.fetch 0]⟩ := by
  cases hd : m.decoded with
  | none =>
    rw [step_of_unknown hd] at h ⊢
    cases h
    exact ⟨rfl, rfl⟩
  | some e =>
    rw [step_of_entry hd] at h
    cases h

theorem step_cost_of_error {m : Machine β} {fault : Fault} (h : m.step.value = .error fault) :
    m.step.cost = 1 := by
  rw [(step_of_error h).2]
  rfl

end Machine

end Mos6502
