import Mos6502.Proofs.Run
import Mos6502.Proofs.Timing
/-!
Programs on a live counter. `BusM.countdown` runs a program with a signed 32-bit counter that each
cycle lowers by one and that fails to go below the least number. `countdown_eq` says that the
counter goes down by the cost of the run and that nothing a program does depends on it,
`countdown_iff` which counters a run gets to its end on and what it leaves of them, and
`loopOn_of_exhausts` how far the loop written on the counter gets on a budget.
-/

namespace Mos6502

/-- A counter, and the values that lowering it has reached, the latest first. -/
structure Counter where
  value : Int32
  reached : List Int32

namespace Counter

def start (value : Int32) : Counter := ⟨value, []⟩

/-- One cycle less, or `none` where a signed 32-bit number would overflow. -/
def lower (c : Counter) : Option Counter :=
  if c.value = .minValue then none else some ⟨c.value - 1, (c.value - 1) :: c.reached⟩

def lowerBy : ℕ → Counter → Option Counter
  | 0, c => some c
  | k + 1, c => c.lower.bind (lowerBy k)

theorem lowerBy_add (j k : ℕ) (c : Counter) :
    c.lowerBy (j + k) = (c.lowerBy j).bind (lowerBy k) := by
  induction j generalizing c with
  | zero => simp [lowerBy]
  | succ j ih =>
    rw [Nat.add_right_comm]
    simp only [lowerBy, Option.bind_assoc]
    exact congrArg c.lower.bind (funext ih)

theorem pos_iff (v : Int32) : 0 < v ↔ 0 < v.toInt := Int32.lt_iff_toInt_lt

theorem toInt_pred {v : Int32} (h : v ≠ .minValue) : (v - 1).toInt = v.toInt - 1 := by
  have hne : v.toInt ≠ -2 ^ 31 := fun he => h (Int32.toInt_inj.mp he)
  have hlo := v.le_toInt
  have hhi := v.toInt_lt
  rw [Int32.toInt_sub, show (1 : Int32).toInt = 1 from rfl]
  exact Int.bmod_eq_of_le (by omega) (by omega)

theorem lower_eq_some {c d : Counter} (h : c.lower = some d) :
    d.value.toInt = c.value.toInt - 1 ∧ d.reached = d.value :: c.reached := by
  unfold lower at h
  split at h
  · cases h
  · next hne =>
    cases h
    exact ⟨toInt_pred hne, rfl⟩

theorem lowerBy_eq_some {k : ℕ} {c d : Counter} (h : c.lowerBy k = some d) :
    d.value.toInt = c.value.toInt - k ∧
      ∀ v ∈ d.reached, v ∈ c.reached ∨ d.value.toInt ≤ v.toInt ∧ v.toInt ≤ c.value.toInt := by
  induction k generalizing c with
  | zero =>
    cases h
    exact ⟨by simp, fun v hv => Or.inl hv⟩
  | succ k ih =>
    obtain ⟨c', hc, hd⟩ := Option.bind_eq_some_iff.mp h
    obtain ⟨hpred, hc'⟩ := lower_eq_some hc
    obtain ⟨hval, hreached⟩ := ih hd
    refine ⟨by push_cast; omega, fun v hv => ?_⟩
    rcases hreached v hv with hm | hb
    · rw [hc'] at hm
      rcases List.mem_cons.mp hm with rfl | hm
      · exact Or.inr (by omega)
      · exact Or.inl hm
    · exact Or.inr (by omega)

theorem reached_of_start {k : ℕ} {value : Int32} {d : Counter}
    (h : (start value).lowerBy k = some d) {v : Int32} (hv : v ∈ d.reached) :
    0 < k ∧ d.value.toInt ≤ v.toInt ∧ v.toInt ≤ value.toInt := by
  have hb := ((lowerBy_eq_some h).2 v hv).resolve_left List.not_mem_nil
  refine ⟨Nat.pos_of_ne_zero fun hk => ?_, hb⟩
  subst hk
  cases h
  exact List.not_mem_nil hv

theorem lowerBy_of_range {k : ℕ} {c : Counter} (h : -2 ^ 31 ≤ c.value.toInt - k) :
    ∃ d, c.lowerBy k = some d := by
  induction k generalizing c with
  | zero => exact ⟨c, rfl⟩
  | succ k ih =>
    push_cast at h
    have hne : c.value ≠ .minValue := by
      intro he
      rw [he, Int32.toInt_minValue] at h
      omega
    rw [lowerBy, lower, if_neg hne]
    apply ih
    rw [toInt_pred hne]
    omega

end Counter

namespace BusM

variable {α β : Type} [Bus β]

def countdown : BusM α → Counter → β → Option (α × Counter × β)
  | done a, c, bus => some (a, c, bus)
  | read address next, c, bus => do (next (Bus.read bus address)).countdown (← c.lower) bus
  | write address v next, c, bus => do next.countdown (← c.lower) (Bus.write bus address v)
  | idle next, c, bus => do next.countdown (← c.lower) bus

theorem countdown_eq (p : BusM α) (c : Counter) (bus : β) :
    p.countdown c bus = (c.lowerBy (p.runOn bus).cost).map fun d =>
      ((p.runOn bus).value, d, (p.runOn bus).state) := by
  induction p generalizing c bus with
  | done a => rfl
  | read address next ih =>
    simp only [countdown, runOn, Outcome.cost, Outcome.after, List.length_cons, List.cons_append,
      List.nil_append, Counter.lowerBy, Option.map_bind, ih]
    rfl
  | write address v next ih =>
    simp only [countdown, runOn, Outcome.cost, Outcome.after, List.length_cons, List.cons_append,
      List.nil_append, Counter.lowerBy, Option.map_bind, ih]
    rfl
  | idle next ih =>
    simp only [countdown, runOn, Outcome.cost, Outcome.after, List.length_cons, List.cons_append,
      List.nil_append, Counter.lowerBy, Option.map_bind, ih]
    rfl

end BusM

namespace Machine

variable {β : Type} [Bus β]

/-- Runs a program on a counter, or answers `none` where the counter overflows. -/
def countdown {α : Type} (m : Machine β) (p : CpuM α) (c : Counter) :
    Option (α × Counter × Machine β) :=
  ((p.run m.cpu).countdown c m.bus).map fun
    | ((value, cpu), c, bus) => (value, c, ⟨cpu, bus⟩)

theorem countdown_run {α : Type} (m : Machine β) (p : CpuM α) (c : Counter) :
    m.countdown p c =
      (c.lowerBy (m.run p).cost).map fun d => ((m.run p).value, d, (m.run p).state) := by
  rw [countdown, BusM.countdown_eq, Option.map_map]
  rfl

/-- A program comes to its end on a counter exactly if a signed 32-bit number can hold what its run
leaves of the counter, and that is what the counter then holds. -/
theorem countdown_iff {α : Type} {m : Machine β} {p : CpuM α} {c : Counter} {value : α}
    {last : Machine β} {left : ℤ} :
    (∃ d, m.countdown p c = some (value, d, last) ∧ d.value.toInt = left) ↔
      (m.run p).value = value ∧ (m.run p).state = last ∧
        (m.run p).left c.value.toInt = left ∧ -2 ^ 31 ≤ left := by
  constructor
  · rintro ⟨d, h, rfl⟩
    rw [countdown_run, Option.map_eq_some_iff] at h
    obtain ⟨d', hd, h⟩ := h
    cases h
    exact ⟨rfl, rfl, (Counter.lowerBy_eq_some hd).1.symm, d.value.le_toInt⟩
  · rintro ⟨rfl, rfl, rfl, hroom⟩
    obtain ⟨d, hd⟩ := Counter.lowerBy_of_range hroom
    refine ⟨d, ?_, (Counter.lowerBy_eq_some hd).1⟩
    rw [countdown_run, hd]
    rfl

abbrev Count (β : Type) := Except Fault Unit × Counter × Machine β

def instructionOn (m : Machine β) (c : Counter) : Option (Count β) :=
  m.countdown CpuM.instruction c

/-- Runs instructions while the counter is positive, but not more than the given number. -/
def loopOn : ℕ → Counter → Machine β → Option (Count β)
  | 0, c, m => if 0 < c.value then none else some (.ok (), c, m)
  | turns + 1, c, m =>
    if 0 < c.value then
      match m.instructionOn c with
      | none => none
      | some (.error fault, c, m) => some (.error fault, c, m)
      | some (.ok (), c, m) => loopOn turns c m
    else some (.ok (), c, m)

/-- No instruction looks at the counter: result, cost and effect are those of a step. -/
theorem instructionOn_eq (m : Machine β) (c : Counter) :
    m.instructionOn c = (c.lowerBy m.step.cost).map fun d =>
      (m.step.value.map fun _ => (), d, m.step.state) := by
  have hv : m.step.value.map (fun _ => ()) = (m.run CpuM.instruction).value := by
    rw [step_eq_run]
    cases (m.run CpuM.instruction).value <;> rfl
  rw [hv, instructionOn, countdown_run, step_eq_run]
  rfl

theorem Exhausts.tail {m : Machine β} {budget : ℤ} {n : ℕ} (h : m.Exhausts budget (n + 1)) :
    m.step.value = .ok m.step.cost ∧ m.next.Exhausts (budget - m.step.cost) n := by
  obtain ⟨hv, hc⟩ := completes_next.mp h.completes
  refine ⟨hv, hc, fun k hk => ?_, fun hlt => ?_⟩
  · have := h.started (k + 1) (Nat.succ_lt_succ hk)
    rw [spent_next] at this
    push_cast at this
    omega
  · rw [stepped_next]
    apply h.stopped
    rw [spent_next]
    push_cast
    omega

theorem loopOn_of_exhausts {m : Machine β} {c : Counter} {n : ℕ}
    (h : m.Exhausts c.value.toInt n) (turns : ℕ) :
    ∃ d, c.lowerBy (m.spent n) = some d ∧
      m.loopOn (n + turns) c = (m.stepped n).loopOn turns d := by
  induction n generalizing m c with
  | zero => exact ⟨c, rfl, by rw [Nat.zero_add, stepped_zero]⟩
  | succ n ih =>
    obtain ⟨hv, hnext⟩ := h.tail
    have hpos : 0 < c.value.toInt := by simpa using h.started 0 n.succ_pos
    have hcost := step_cost_bounds hv
    obtain ⟨c', hc'⟩ := Counter.lowerBy_of_range (c := c) (k := m.step.cost) (by omega)
    rw [← (Counter.lowerBy_eq_some hc').1] at hnext
    obtain ⟨d, hd, hloop⟩ := ih hnext
    refine ⟨d, ?_, ?_⟩
    · rw [spent_next, Counter.lowerBy_add, hc', Option.bind_some, hd]
    · rw [Nat.add_right_comm, loopOn, if_pos ((Counter.pos_iff _).mpr hpos), instructionOn_eq, hc',
        hv, ← stepped_next, ← hloop]
      rfl

theorem loopOn_stop {m : Machine β} {c : Counter} (h : c.value.toInt ≤ 0) (turns : ℕ) :
    m.loopOn turns c = some (.ok (), c, m) := by
  have hc : ¬ 0 < c.value := by
    rw [Counter.pos_iff]
    exact Int.not_lt.mpr h
  cases turns <;> rw [loopOn, if_neg hc]

theorem loopOn_fail {m : Machine β} {c : Counter} {fault : Fault} (h : 0 < c.value.toInt)
    (hf : m.step.value = .error fault) (turns : ℕ) :
    ∃ d, c.lowerBy m.step.cost = some d ∧
      m.loopOn (turns + 1) c = some (.error fault, d, m.next) := by
  have hcost : m.step.cost = 1 := step_cost_of_error hf
  obtain ⟨d, hd⟩ := Counter.lowerBy_of_range (c := c) (k := m.step.cost) (by omega)
  refine ⟨d, hd, ?_⟩
  rw [loopOn, if_pos ((Counter.pos_iff _).mpr h), instructionOn_eq, hd, hf]
  rfl

end Machine

end Mos6502
