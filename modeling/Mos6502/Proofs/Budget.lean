import Mos6502.Proofs.Counter
/-!
Running on a budget. `budgeted_run` tells the outcome of `Machine.execute` by single steps, and
`budget_bounds` says how many instructions a budget runs, how far it is overshot and which values
the counter takes on the way.
-/

namespace Mos6502.Machine

variable {β : Type} [Bus β]

theorem spent_le_of_le (m : Machine β) {k n : ℕ} (h : k ≤ n) : m.spent k ≤ m.spent n := by
  induction n, h using Nat.le_induction with
  | base => exact Nat.le_refl _
  | succ n _ ih =>
    rw [spent_succ]
    omega

theorem Completes.of_le {m : Machine β} {k n : ℕ} (h : m.Completes n) (hk : k ≤ n) :
    m.Completes k := fun j hj => h j (Nat.lt_of_lt_of_le hj hk)

theorem spent_bounds {m : Machine β} {n : ℕ} (h : m.Completes n) :
    2 * n ≤ m.spent n ∧ m.spent n ≤ 6 * n := by
  induction n with
  | zero => exact ⟨Nat.le_refl 0, Nat.le_refl 0⟩
  | succ n ih =>
    have hn := ih (h.of_le n.le_succ)
    have hc := step_cost_bounds (h n n.lt_succ_self)
    rw [spent_succ]
    omega

theorem spent_lt {m : Machine β} {k n : ℕ} (h : m.Completes n) (hk : k < n) :
    m.spent k < m.spent n := by
  have hle := m.spent_le_of_le (show k + 1 ≤ n from hk)
  have hcost := step_cost_bounds (h k hk)
  rw [spent_succ] at hle
  omega

namespace Exhausts

variable {m : Machine β} {budget : ℤ} {n : ℕ}

theorem of_reached (hn : 1 ≤ n) (hc : m.Completes n) (hlt : m.spent (n - 1) < budget)
    (hle : budget ≤ m.spent n) : m.Exhausts budget n := by
  refine ⟨hc, fun k hk => ?_, fun h => absurd h (Int.not_lt.mpr hle)⟩
  have := m.spent_le_of_le (show k ≤ n - 1 by omega)
  omega

theorem of_failed {fault : Fault} (hc : m.Completes n) (hlt : m.spent n < budget)
    (hf : (m.stepped n).step.value = .error fault) : m.Exhausts budget n := by
  refine ⟨hc, fun k hk => ?_, fun _ => ⟨fault, hf⟩⟩
  have := m.spent_le_of_le (Nat.le_of_lt hk)
  omega

theorem pos (h : m.Exhausts budget n) (hb : 0 < budget) (hle : budget ≤ m.spent n) : 1 ≤ n := by
  by_contra hn
  obtain rfl : n = 0 := by omega
  simp only [spent_zero] at hle
  omega

theorem last_started (h : m.Exhausts budget n) (hn : 1 ≤ n) : m.spent (n - 1) < budget :=
  h.started (n - 1) (by omega)

theorem overshoot (h : m.Exhausts budget n) (hn : 1 ≤ n) : m.spent n ≤ budget + 5 := by
  obtain ⟨k, rfl⟩ : ∃ k, n = k + 1 := ⟨n - 1, by omega⟩
  have hlast := h.last_started hn
  have hc := step_cost_bounds (h.completes k k.lt_succ_self)
  rw [spent_succ]
  simp only [Nat.add_sub_cancel] at hlast
  push_cast
  omega

theorem last_bound (h : m.Exhausts budget n) (hn : 1 ≤ n) : 2 * (n - 1 : ℤ) < budget := by
  have hlast := h.last_started hn
  have hc := (spent_bounds (h.completes.of_le (n.sub_le 1))).1
  omega

end Exhausts

/-- Half a budget, rounded up: the number of instructions that it pays for at most. -/
def turnLimit (budget : Int32) : ℕ := ((budget.toInt + 1) / 2).toNat

theorem Exhausts.le_turnLimit {m : Machine β} {budget : Int32} {n : ℕ}
    (h : m.Exhausts budget.toInt n) : n ≤ turnLimit budget := by
  by_cases hn : 1 ≤ n
  · have := h.last_bound hn
    unfold turnLimit
    omega
  · omega

theorem execute_cost_le (m : Machine β) (budget : Int32) (hpos : 0 < (m.execute budget).cost) :
    ((m.execute budget).cost : ℤ) ≤ budget.toInt + 5 := by
  obtain ⟨n, hn, ⟨hle, -⟩ | ⟨hlt, fault, hf, -⟩⟩ := m.execute_cases budget
  · rw [execute_cost_of_reached hn hle] at hpos ⊢
    apply hn.overshoot
    by_contra h0
    obtain rfl : n = 0 := by omega
    exact absurd hpos (Nat.lt_irrefl 0)
  · rw [execute_cost_of_failed hn hlt hf]
    push_cast
    omega

/-- The loop on the live counter ends within the limit, and as `execute` does. Each cycle of the
run lowers the counter by one. -/
theorem loopOn_lowers (m : Machine β) (budget : Int32) :
    ∃ d, (Counter.start budget).lowerBy (m.execute budget).cost = some d ∧
      m.loopOn (turnLimit budget) (.start budget) =
        some ((m.execute budget).value.map fun _ => (), d, (m.execute budget).state) := by
  obtain ⟨n, hn, ⟨hle, -⟩ | ⟨hlt, fault, hf, -⟩⟩ := m.execute_cases budget
  · obtain ⟨d, hd, hloop⟩ :=
      loopOn_of_exhausts (c := .start budget) hn (turnLimit budget - n)
    have hval : d.value.toInt = budget.toInt - m.spent n := (Counter.lowerBy_eq_some hd).1
    rw [Nat.add_sub_of_le hn.le_turnLimit, loopOn_stop (c := d) (by omega)] at hloop
    refine ⟨d, ?_, ?_⟩
    · rw [execute_cost_of_reached hn hle, hd]
    · rw [hloop, execute_of_reached hn hle]
      rfl
  · have hlim : n + 1 ≤ turnLimit budget := by
      have := (spent_bounds hn.completes).1
      unfold turnLimit
      omega
    obtain ⟨c, hc, hloop⟩ :=
      loopOn_of_exhausts (c := .start budget) hn (turnLimit budget - (n + 1) + 1)
    have hval : c.value.toInt = budget.toInt - m.spent n := (Counter.lowerBy_eq_some hc).1
    obtain ⟨d, hd, hfail⟩ := loopOn_fail (c := c) (by omega) hf (turnLimit budget - (n + 1))
    rw [step_cost_of_error hf] at hd
    rw [hfail, show n + (turnLimit budget - (n + 1) + 1) = turnLimit budget by omega, next,
      (step_of_error hf).2] at hloop
    refine ⟨d, ?_, ?_⟩
    · rw [execute_cost_of_failed hn hlt hf, Counter.lowerBy_add, hc, Option.bind_some, hd]
    · rw [hloop, execute_of_failed hn hlt hf]
      rfl

theorem loopOn_execute (m : Machine β) (budget : Int32) :
    ∃ d, m.loopOn (turnLimit budget) (.start budget) =
        some ((m.execute budget).value.map fun _ => (), d, (m.execute budget).state) ∧
      (∀ v ∈ d.reached, -5 ≤ v.toInt ∧ v.toInt ≤ budget.toInt) ∧
      ∀ count, (m.execute budget).value = .ok count →
        (count : ℤ) = min (budget.toInt - d.value.toInt) countLimit := by
  obtain ⟨d, hd, hloop⟩ := m.loopOn_lowers budget
  have hval : d.value.toInt = budget.toInt - (m.execute budget).cost :=
    (Counter.lowerBy_eq_some hd).1
  refine ⟨d, hloop, ?_, ?_⟩
  · intro v hv
    obtain ⟨hpos, hlo, hhi⟩ := Counter.reached_of_start hd hv
    have := m.execute_cost_le budget hpos
    omega
  · intro count hc
    have := execute_value_cost hc
    omega

theorem execute_ok_iff {m : Machine β} {budget : Int32} (hb : 0 < budget.toInt) (count : ℕ)
    (last : Machine β) :
    (m.execute budget).value = .ok count ∧ (m.execute budget).state = last ↔
      ∃ n, 1 ≤ n ∧ m.Completes n ∧ m.spent (n - 1) < budget.toInt ∧ budget.toInt ≤ m.spent n ∧
        last = m.stepped n ∧ count = min (m.spent n) countLimit := by
  constructor
  · rintro ⟨hv, rfl⟩
    obtain ⟨n, hn, hle, rfl⟩ := reached_of_ok hv
    have hone := hn.pos hb hle
    rw [execute_of_reached hn hle]
    exact ⟨n, hone, hn.completes, hn.last_started hone, hle, rfl, rfl⟩
  · rintro ⟨n, hone, hc, hlt, hle, rfl, rfl⟩
    have hn : m.Exhausts budget.toInt n := .of_reached hone hc hlt hle
    rw [execute_of_reached hn hle]
    exact ⟨rfl, rfl⟩

theorem execute_error_iff (m : Machine β) (budget : Int32) (fault : Fault) (last : Machine β) :
    (m.execute budget).value = .error fault ∧ (m.execute budget).state = last ↔
      ∃ k, m.Completes k ∧ m.spent k < budget.toInt ∧
        (m.stepped k).step.value = .error fault ∧ last = (m.stepped k).step.state := by
  constructor
  · rintro ⟨hv, rfl⟩
    obtain ⟨n, hn, hlt, hf⟩ := failed_of_error hv
    rw [execute_of_failed hn hlt hf]
    refine ⟨n, hn.completes, hlt, hf, ?_⟩
    rw [(step_of_error hf).2]
  · rintro ⟨n, hc, hlt, hf, rfl⟩
    have hn : m.Exhausts budget.toInt n := .of_failed hc hlt hf
    rw [execute_of_failed hn hlt hf, (step_of_error hf).2]
    exact ⟨rfl, rfl⟩

theorem execute_idle {m : Machine β} {budget : Int32} (hb : budget.toInt ≤ 0) :
    m.execute budget = ⟨.ok 0, m, []⟩ := by
  have hnone : m.Exhausts budget.toInt 0 := exhausts_zero hb
  rw [execute_of_reached hnone hb, spent_zero, stepped_zero]
  rfl

/-- A budget of just what some completed steps cost runs these steps. -/
theorem execute_spent {m : Machine β} {n : ℕ} (h : m.Completes n) (hle : m.spent n ≤ countLimit) :
    (Int32.ofNat (m.spent n)).toInt = m.spent n ∧
      m.execute (.ofNat (m.spent n)) = ⟨.ok (m.spent n), m.stepped n, m.history n⟩ := by
  have hlimit : countLimit = 2147483647 := rfl
  have hbudget : (Int32.ofNat (m.spent n)).toInt = m.spent n :=
    Int32.toInt_ofNat_of_lt (by omega)
  have hn : m.Exhausts (Int32.ofNat (m.spent n)).toInt n := by
    constructor
    · exact h
    · intro k hk
      have := spent_lt h hk
      omega
    · intro hlt
      omega
  constructor
  · exact hbudget
  · rw [execute_of_reached hn (by omega), Nat.min_eq_left hle]

/-- A run on a budget, told by the run of successive steps from the same machine. -/
structure BudgetedRun (m : Machine β) (budget : Int32) : Prop where
  ok_iff : 0 < budget.toInt → ∀ count last,
    (m.execute budget).value = .ok count ∧ (m.execute budget).state = last ↔
      ∃ n, 1 ≤ n ∧ m.Completes n ∧ m.spent (n - 1) < budget.toInt ∧ budget.toInt ≤ m.spent n ∧
        last = m.stepped n ∧ count = min (m.spent n) countLimit
  error_iff : 0 < budget.toInt → ∀ fault last,
    (m.execute budget).value = .error fault ∧ (m.execute budget).state = last ↔
      ∃ k, m.Completes k ∧ m.spent k < budget.toInt ∧
        (m.stepped k).step.value = .error fault ∧ last = (m.stepped k).step.state
  idle : budget.toInt ≤ 0 → m.execute budget = ⟨.ok 0, m, []⟩
  /-- An instruction on a counter is a step, whatever the counter holds. -/
  uniform : ∀ c : Counter, m.instructionOn c = (c.lowerBy m.step.cost).map fun d =>
    (m.step.value.map fun _ => (), d, m.step.state)
  /-- The loop that hands the counter from instruction to instruction comes to the same. -/
  live : ∃ turns d, m.loopOn turns (.start budget) =
      some ((m.execute budget).value.map fun _ => (), d, (m.execute budget).state) ∧
    ∀ count, (m.execute budget).value = .ok count →
      (count : ℤ) = min (budget.toInt - d.value.toInt) countLimit

theorem budgeted_run (m : Machine β) (budget : Int32) : BudgetedRun m budget where
  ok_iff := execute_ok_iff
  error_iff _ := m.execute_error_iff budget
  idle := execute_idle
  uniform := m.instructionOn_eq
  live := by
    obtain ⟨d, hloop, -, hcount⟩ := m.loopOn_execute budget
    exact ⟨turnLimit budget, d, hloop, hcount⟩

/-- A run completes no more instructions than the limit, and then either stops or fails. -/
theorem execute_completed (m : Machine β) (budget : Int32) :
    ∃ n, m.Exhausts budget.toInt n ∧ n ≤ turnLimit budget ∧
      ((∃ count, (m.execute budget).value = .ok count ∧
          (m.execute budget).state = m.stepped n) ∨
        ∃ fault, (m.execute budget).value = .error fault ∧
          (m.stepped n).step.value = .error fault ∧
          (m.execute budget).state = (m.stepped n).step.state) := by
  obtain ⟨n, hn, ⟨-, he⟩ | ⟨-, fault, hf, he⟩⟩ := m.execute_cases budget
  · refine ⟨n, hn, hn.le_turnLimit, Or.inl ⟨min (m.spent n) countLimit, ?_, ?_⟩⟩
    · rw [he]
    · rw [he]
  · refine ⟨n, hn, hn.le_turnLimit, Or.inr ⟨fault, ?_, hf, ?_⟩⟩
    · rw [he]
    · rw [he]
      exact m.stepped_succ n

theorem execute_ok_bounds {m : Machine β} {budget : Int32} (hb : 0 < budget.toInt) {count : ℕ}
    (hv : (m.execute budget).value = .ok count) :
    budget.toInt ≤ count ∧ (count : ℤ) ≤ min (budget.toInt + 5) countLimit ∧
      ∀ n, m.Exhausts budget.toInt n → (m.execute budget).state = m.stepped n ∧
        budget.toInt ≤ 6 * n ∧ 2 * (n - 1 : ℤ) < budget.toInt := by
  obtain ⟨n, hn, hle, rfl⟩ := reached_of_ok hv
  have hone := hn.pos hb hle
  have hover := hn.overshoot hone
  have hmax := budget.toInt_lt
  refine ⟨?_, ?_, ?_⟩
  · unfold countLimit
    omega
  · omega
  · intro k hk
    obtain rfl := hk.unique hn
    have := (spent_bounds hn.completes).2
    rw [execute_of_reached hn hle]
    exact ⟨rfl, by omega, hn.last_bound hone⟩

theorem step_cost_le (m : Machine β) : m.step.cost ≤ 6 := by
  cases hv : m.step.value with
  | error fault => rw [step_cost_of_error hv]; omega
  | ok cost =>
    have := step_cost_bounds hv
    rw [step_value_cost hv] at this
    exact this.2

/-- A step counts down from zero and answers the negated counter. -/
theorem instructionOn_start_zero (m : Machine β) :
    ∃ d, m.instructionOn (.start 0) =
        some (m.step.value.map fun _ => (), d, m.step.state) ∧
      (∀ v ∈ d.reached, -6 ≤ v.toInt ∧ v.toInt ≤ 0) ∧
      ∀ cost, m.step.value = .ok cost → (-d.value).toInt = cost := by
  have hcost := m.step_cost_le
  have hzero : (Counter.start 0).value.toInt = 0 := rfl
  obtain ⟨d, hd⟩ := Counter.lowerBy_of_range (c := .start 0) (k := m.step.cost) (by omega)
  have hval := (Counter.lowerBy_eq_some hd).1
  refine ⟨d, ?_, ?_, ?_⟩
  · rw [instructionOn_eq, hd]
    rfl
  · intro v hv
    have hb := (Counter.reached_of_start hd hv).2
    have : (0 : Int32).toInt = 0 := rfl
    omega
  · intro cost hv
    rw [step_value_cost hv, Int32.toInt_neg, Int.bmod_eq_of_le (by omega) (by omega)]
    omega

structure BudgetBounds (m : Machine β) (budget : Int32) : Prop where
  cost : ∀ k cost, (m.stepped k).step.value = .ok cost → 2 ≤ cost ∧ cost ≤ 6
  number : ∃ n, m.Exhausts budget.toInt n ∧ n ≤ turnLimit budget ∧
    ((∃ count, (m.execute budget).value = .ok count ∧ (m.execute budget).state = m.stepped n) ∨
      ∃ fault, (m.execute budget).value = .error fault ∧
        (m.stepped n).step.value = .error fault ∧
        (m.execute budget).state = (m.stepped n).step.state)
  ok : 0 < budget.toInt → ∀ count, (m.execute budget).value = .ok count →
    budget.toInt ≤ count ∧ (count : ℤ) ≤ min (budget.toInt + 5) countLimit ∧
      ∀ n, m.Exhausts budget.toInt n → (m.execute budget).state = m.stepped n ∧
        budget.toInt ≤ 6 * n ∧ 2 * (n - 1 : ℤ) < budget.toInt
  /-- On a signed 32-bit counter the loop ends within the limit and never overflows. -/
  loop : ∃ d, m.loopOn (turnLimit budget) (.start budget) =
      some ((m.execute budget).value.map fun _ => (), d, (m.execute budget).state) ∧
    ∀ v ∈ d.reached, -5 ≤ v.toInt ∧ v.toInt ≤ budget.toInt
  single : ∃ d, m.instructionOn (.start 0) =
      some (m.step.value.map fun _ => (), d, m.step.state) ∧
    (∀ v ∈ d.reached, -6 ≤ v.toInt ∧ v.toInt ≤ 0) ∧
    ∀ cost, m.step.value = .ok cost → (-d.value).toInt = cost

theorem budget_bounds (m : Machine β) (budget : Int32) : BudgetBounds m budget where
  cost := by
    intro k cost h
    exact step_cost_bounds h
  number := m.execute_completed budget
  ok := by
    intro hb count hv
    exact execute_ok_bounds hb hv
  loop := by
    obtain ⟨d, hloop, hreached, -⟩ := m.loopOn_execute budget
    exact ⟨d, hloop, hreached⟩
  single := m.instructionOn_start_zero

end Mos6502.Machine
