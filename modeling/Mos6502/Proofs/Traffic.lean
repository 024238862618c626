import Mos6502.Proofs.Run
/-!
Bus traffic. `Machine.traffic` lists the bytes that the instruction at the program counter moves
over the bus: its own bytes, then a pointer, then the data. `bus_traffic` says that a step moves
these in this order and no others, and that a run on a budget moves what its steps move.
-/

namespace Mos6502

namespace Cycle

def onBus : Cycle → Bool
  | read .. => true
  | write .. => true
  | internal => false

@[simp] theorem onBus_write (a : UInt16) (v : UInt8) : (write a v).onBus = true := rfl

@[simp] theorem onBus_internal : internal.onBus = false := rfl

end Cycle

/-- The bytes that cross the bus in a run, oldest first. -/
def Outcome.traffic {σ α : Type} (o : Outcome σ α) : List Cycle := o.timeline.filter Cycle.onBus

variable {β : Type} [Bus β]

namespace Mode

/-- The pointer is read in the zero page, both bytes of it. -/
def pointerTraffic (m : Machine β) : Mode → List Cycle
  | indirectX => pointerReads m.bus (m.operand.low + m.cpu.x)
  | indirectY => pointerReads m.bus m.operand.low
  | _ => []

end Mode

/-- The modes that an instruction can have. -/
def Instruction.Admits (mode : Mode) : Instruction → Prop
  | load _ => mode ≠ .implicit
  | store _ => mode ≠ .implicit ∧ mode ≠ .immediate
  | jsr => mode = .absolute
  | rts => mode = .implicit
  | nop => mode = .implicit

instance (mode : Mode) : (i : Instruction) → Decidable (i.Admits mode)
  | .load _ => inferInstanceAs (Decidable (mode ≠ .implicit))
  | .store _ => inferInstanceAs (Decidable (mode ≠ .implicit ∧ mode ≠ .immediate))
  | .jsr => inferInstanceAs (Decidable (mode = .absolute))
  | .rts => inferInstanceAs (Decidable (mode = .implicit))
  | .nop => inferInstanceAs (Decidable (mode = .implicit))

namespace Entry

/-- The reads that fetch the instruction and its operand. -/
def stream (e : Entry) (m : Machine β) : List Cycle :=
  (List.range e.size).map fun k => m.fetch (.ofNat k)

def dataTraffic (e : Entry) (m : Machine β) : List Cycle :=
  match e.instruction with
  | .load _ => if e.mode = .immediate then [] else [Bus.peek m.bus (e.mode.cell m.operand m)]
  | .store r => [.write (e.mode.cell m.operand m) (m.cpu.register r)]
  | .jsr =>
    [.write m.cpu.sp.toUInt16 (Word.low (m.cpu.pc + 2)),
      .write (m.cpu.sp.toUInt16 + 1) (Word.high (m.cpu.pc + 2))]
  | .rts =>
    [Bus.peek m.bus (m.cpu.sp + 2).toUInt16, Bus.peek m.bus ((m.cpu.sp + 2).toUInt16 + 1)]
  | .nop => []

def traffic (e : Entry) (m : Machine β) : List Cycle :=
  e.stream m ++ e.mode.pointerTraffic m ++ e.dataTraffic m

theorem registry_admits : ∀ p ∈ registry, p.2.instruction.Admits p.2.mode := by decide

end Entry

namespace Machine

def traffic (m : Machine β) : List Cycle :=
  match m.decoded with
  | some e => e.traffic m
  | none => [.read m.cpu.pc m.opcode]

end Machine

@[simp] theorem Bus.onBus_peek (bus : β) (a : UInt16) : (peek bus a).onBus = true := rfl

@[simp] theorem Machine.onBus_fetch (m : Machine β) (offset : UInt16) :
    (m.fetch offset).onBus = true := rfl

namespace Mode

theorem onBus_indexCycle (charge : IndexCharge) (base effective : UInt16) :
    (indexCycle charge base effective).filter Cycle.onBus = [] := by
  unfold indexCycle
  split
  · rfl
  · rfl

theorem onBus_finding {mode : Mode} (h : mode ≠ .immediate) (charge : IndexCharge)
    (m : Machine β) :
    m.fetch 0 :: (mode.finding charge m).filter Cycle.onBus =
      ((List.range (1 + mode.operandBytes)).map fun k => m.fetch (.ofNat k)) ++
        mode.pointerTraffic m := by
  cases mode with
  | immediate => contradiction
  | _ =>
    simp [finding, operandBytes, pointerTraffic, pointerReads, onBus_indexCycle, List.filter_cons,
      List.range_succ]

end Mode

namespace Entry

theorem onBus_load {e : Entry} {r : Register} (he : e.instruction = .load r) (m : Machine β) :
    (e.cycles m).filter Cycle.onBus = e.traffic m := by
  simp only [cycles, work, traffic, stream, dataTraffic, size, he]
  by_cases hi : e.mode = .immediate
  · simp [hi, Mode.reading, Mode.pointerTraffic, Mode.operandBytes, List.filter_cons,
      List.range_succ]
  · rw [Mode.reading_of_cell hi, ← Mode.onBus_finding hi .onCrossing]
    simp [hi, List.filter_cons]

theorem onBus_store {e : Entry} {r : Register} (he : e.instruction = .store r)
    (hi : e.mode ≠ .immediate) (m : Machine β) :
    (e.cycles m).filter Cycle.onBus = e.traffic m := by
  simp only [cycles, work, traffic, stream, dataTraffic, size, he]
  rw [← Mode.onBus_finding hi .always]
  simp [List.filter_cons]

/-- Of the cycles of an instruction those on the bus are its traffic. -/
theorem onBus_cycles {e : Entry} (h : e.instruction.Admits e.mode) (m : Machine β) :
    (e.cycles m).filter Cycle.onBus = e.traffic m := by
  cases he : e.instruction with
  | load r => exact onBus_load he m
  | store r =>
    rw [he] at h
    exact onBus_store he h.2 m
  | jsr =>
    rw [he] at h
    have hmode : e.mode = .absolute := h
    simp [cycles, work, traffic, stream, dataTraffic, size, he, hmode, Mode.pointerTraffic,
      Mode.operandBytes, List.filter_cons, List.range_succ]
  | rts =>
    rw [he] at h
    have hmode : e.mode = .implicit := h
    simp [cycles, work, traffic, stream, dataTraffic, size, he, hmode, Mode.pointerTraffic,
      Mode.operandBytes, List.filter_cons]
  | nop =>
    rw [he] at h
    have hmode : e.mode = .implicit := h
    simp [cycles, work, traffic, stream, dataTraffic, size, he, hmode, Mode.pointerTraffic,
      Mode.operandBytes, List.filter_cons]

end Entry

namespace Machine

theorem step_traffic (m : Machine β) : m.step.traffic = m.traffic := by
  cases hd : m.decoded with
  | none =>
    rw [Outcome.traffic, step_of_unknown hd, traffic, hd, fetch_zero]
    rfl
  | some e =>
    have h := Entry.registry_admits _ (Entry.mem_registry hd)
    rw [Outcome.traffic, step_of_entry hd, traffic, hd]
    exact Entry.onBus_cycles h m

theorem onBus_history (m : Machine β) (n : ℕ) :
    (m.history n).filter Cycle.onBus = (List.range n).flatMap fun k => (m.stepped k).traffic := by
  simp only [history, List.filter_flatMap, ← step_traffic]
  rfl

/-- Which bytes cross the bus in a step and in a run on a budget. -/
structure BusTraffic (m : Machine β) : Prop where
  step : m.step.traffic = m.traffic
  /-- A run makes the calls of its completed steps in turn, and then those of a step that fails. -/
  run : ∀ budget, ∃ n, m.Exhausts budget.toInt n ∧
    ((∃ count, (m.execute budget).value = .ok count ∧ (m.execute budget).state = m.stepped n ∧
        (m.execute budget).traffic = (List.range n).flatMap fun k => (m.stepped k).traffic) ∨
      ∃ fault, (m.execute budget).value = .error fault ∧
        (m.execute budget).state = m.stepped n ∧
        (m.execute budget).traffic =
          ((List.range n).flatMap fun k => (m.stepped k).traffic) ++
            [.read (m.stepped n).cpu.pc (m.stepped n).opcode])

end Machine

end Mos6502
