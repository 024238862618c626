import Mos6502.Proofs.Budget
import Mos6502.Proofs.Traffic
/-!
Cycle accounting. A cycle is charged for each byte that crosses the bus and for each internal cycle,
and for nothing else: `Entry.internalCycles` tells the internal ones of an instruction, and
`accesses_charged` says that a run on a budget is charged its bus accesses and these.
-/

namespace Mos6502

variable {β : Type} [Bus β]

/-- A cycle is on the bus or internal. -/
theorem Cycle.length_eq_onBus_add_internal (cycles : List Cycle) :
    cycles.length = (cycles.filter onBus).length + cycles.count internal := by
  induction cycles with
  | nil => rfl
  | cons c cycles ih =>
    rw [List.length_cons, ih, List.filter_cons, List.count_cons]
    cases c with
    | read a v => simp [onBus]; omega
    | write a v => simp [onBus]; omega
    | internal => simp [onBus]; omega

namespace Mode

/-- The modes that add an index register to a zero-page address. -/
def ZeroPageIndexed (mode : Mode) : Prop :=
  mode = zeroPageX ∨ mode = zeroPageY ∨ mode = indirectX

instance (mode : Mode) : Decidable mode.ZeroPageIndexed := by
  unfold ZeroPageIndexed; infer_instance

theorem internal_indexCycle (charge : IndexCharge) (base effective : UInt16) :
    (indexCycle charge base effective).count .internal =
      if charge = .always ∨ PageCrossed base effective then 1 else 0 := by
  unfold indexCycle
  split
  · rfl
  · rfl

theorem internal_finding (charge : IndexCharge) (m : Machine β) (mode : Mode) :
    (mode.finding charge m).count .internal =
      if mode.ZeroPageIndexed ∨ mode.WordIndexed ∧
          (charge = .always ∨ PageCrossed (mode.base m.operand m) (mode.cell m.operand m))
        then 1 else 0 := by
  cases mode <;>
    simp [finding, ZeroPageIndexed, WordIndexed, pointerReads, Bus.peek, Machine.fetch,
      internal_indexCycle]

theorem internal_reading (m : Machine β) (mode : Mode) :
    (mode.reading m).count .internal =
      if mode.ZeroPageIndexed ∨ mode.WordIndexed ∧
          PageCrossed (mode.base m.operand m) (mode.cell m.operand m)
        then 1 else 0 := by
  by_cases hi : mode = .immediate
  · subst hi
    simp [reading, ZeroPageIndexed, WordIndexed, Machine.fetch]
  · rw [reading_of_cell hi, List.count_append, internal_finding]
    simp [Bus.peek]

end Mode

namespace Entry

/-- The cycles that an instruction spends inside the processor. -/
def internalCycles (e : Entry) (m : Machine β) : ℕ :=
  match e.instruction with
  | .load _ =>
    if e.mode.ZeroPageIndexed ∨ e.mode.WordIndexed ∧
        PageCrossed (e.mode.base m.operand m) (e.mode.cell m.operand m)
      then 1 else 0
  | .store _ => if e.mode.ZeroPageIndexed ∨ e.mode.WordIndexed then 1 else 0
  | .jsr | .nop => 1
  | .rts => 3

theorem internal_cycles (e : Entry) (m : Machine β) :
    (e.cycles m).count .internal = e.internalCycles m := by
  unfold cycles work internalCycles
  cases e.instruction with
  | load r => simp [Mode.internal_reading, Machine.fetch]
  | store r => simp [Mode.internal_finding, Machine.fetch]
  | jsr => simp [Machine.fetch]
  | rts => simp [Machine.fetch, Bus.peek]
  | nop => simp [Machine.fetch]

end Entry

namespace Outcome

variable {σ α : Type}

/-- The cycles of a run in which the processor works by itself. -/
def internalCycles (o : Outcome σ α) : ℕ := o.timeline.count .internal

theorem cost_eq_traffic_add_internal (o : Outcome σ α) :
    o.cost = o.traffic.length + o.internalCycles := Cycle.length_eq_onBus_add_internal o.timeline

end Outcome

namespace Machine

/-- The internal cycles of the instruction at the program counter; an unknown byte has none. -/
def internalCycles (m : Machine β) : ℕ :=
  match m.decoded with
  | some e => e.internalCycles m
  | none => 0

/-- The internal cycles of the first `n` instructions. -/
def internalSpent (m : Machine β) (n : ℕ) : ℕ :=
  ∑ k ∈ Finset.range n, (m.stepped k).internalCycles

theorem step_internal (m : Machine β) : m.step.internalCycles = m.internalCycles := by
  unfold internalCycles
  cases hd : m.decoded with
  | none =>
    rw [Outcome.internalCycles, step_of_unknown hd]
    rfl
  | some e =>
    rw [Outcome.internalCycles, step_of_entry hd]
    exact e.internal_cycles m

theorem internalSpent_succ (m : Machine β) (n : ℕ) :
    m.internalSpent (n + 1) = m.internalSpent n + (m.stepped n).internalCycles :=
  Finset.sum_range_succ _ n

theorem history_internal (m : Machine β) (n : ℕ) :
    (m.history n).count .internal = m.internalSpent n := by
  induction n with
  | zero => rfl
  | succ n ih =>
    have hstep := (m.stepped n).step_internal
    rw [history_succ, List.count_append, ih, internalSpent_succ, ← hstep]
    rfl

/-- What a run on a budget, in which `n` instructions complete, is charged for. -/
structure AccessesCharged (m : Machine β) (budget : Int32) (n : ℕ) : Prop where
  exhausts : m.Exhausts budget.toInt n
  instruction : ∀ k < n, ∃ e, (m.stepped k).decoded = some e ∧ (m.stepped k).step.value =
    .ok ((m.stepped k).step.traffic.length + e.internalCycles (m.stepped k))
  ok : ∀ count, (m.execute budget).value = .ok count →
    m.spent n = (m.execute budget).traffic.length + m.internalSpent n ∧
    count = min (m.spent n) countLimit ∧
    (m.spent n ≤ countLimit → (m.execute budget).traffic.length ≤ count)
  /-- The access of a failing run that no instruction pays for is the fetch of the unknown byte. -/
  failed : ∀ fault, (m.execute budget).value = .error fault →
    (m.stepped n).decoded = none ∧
    (m.execute budget).traffic =
      ((List.range n).flatMap fun k => (m.stepped k).step.traffic) ++
        [.read (m.stepped n).cpu.pc (m.stepped n).opcode] ∧
    (m.execute budget).traffic.length + m.internalSpent n = m.spent n + 1
  /-- The live counter is lowered for each access and for each internal cycle. -/
  counter : ∃ turns d, m.loopOn turns (.start budget) =
      some ((m.execute budget).value.map fun _ => (), d, (m.execute budget).state) ∧
    budget.toInt - d.value.toInt = (m.execute budget).traffic.length + m.internalSpent n

theorem step_charged {m : Machine β} {e : Entry} (h : m.decoded = some e) :
    m.step.value = .ok (m.step.traffic.length + e.internalCycles m) := by
  have hcost := m.step.cost_eq_traffic_add_internal
  rw [m.step_internal, internalCycles, h] at hcost
  rw [← hcost, step_of_entry h]
  rfl

theorem execute_charged {m : Machine β} {budget : Int32} {n : ℕ}
    (hn : m.Exhausts budget.toInt n) :
    (m.execute budget).cost = (m.execute budget).traffic.length + m.internalSpent n := by
  have hinternal : (m.execute budget).internalCycles = m.internalSpent n := by
    by_cases hle : budget.toInt ≤ m.spent n
    · rw [execute_of_reached hn hle]
      exact m.history_internal n
    · obtain ⟨fault, hf⟩ := hn.stopped (by omega)
      rw [execute_of_failed hn (by omega) hf, Outcome.internalCycles, List.count_append,
        history_internal]
      rfl
  rw [Outcome.cost_eq_traffic_add_internal, hinternal]

theorem accesses_charged (m : Machine β) (budget : Int32) :
    ∃ n, m.AccessesCharged budget n := by
  obtain ⟨n, hn, hcases⟩ := m.execute_cases budget
  have hcharged := execute_charged hn
  refine ⟨n, hn, ?_, ?_, ?_, ?_⟩
  · intro k hk
    obtain ⟨e, he⟩ := hn.completes.decoded hk
    exact ⟨e, he, step_charged he⟩
  · intro count hv
    obtain ⟨hle, -⟩ | ⟨-, fault, -, he⟩ := hcases
    · have hcost := execute_cost_of_reached hn hle
      have hcount := execute_value_cost hv
      rw [hcost] at hcount
      exact ⟨by omega, hcount, by omega⟩
    · rw [he] at hv
      cases hv
  · intro fault hv
    obtain ⟨-, he⟩ | ⟨hlt, fault', hf, -⟩ := hcases
    · rw [he] at hv
      cases hv
    · have hcost := execute_cost_of_failed hn hlt hf
      refine ⟨(step_of_error hf).1, ?_, by omega⟩
      rw [execute_of_failed hn hlt hf, Outcome.traffic, List.filter_append, fetch_zero,
        onBus_history]
      simp only [step_traffic]
      rfl
  · obtain ⟨d, hd, hloop⟩ := m.loopOn_lowers budget
    have hval : d.value.toInt = budget.toInt - (m.execute budget).cost :=
      (Counter.lowerBy_eq_some hd).1
    exact ⟨turnLimit budget, d, hloop, by omega⟩

end Machine

end Mos6502
