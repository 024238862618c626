import Mathlib.Algebra.BigOperators.Intervals
import Mos6502.Proofs.Effect
/-!
Successive steps and budgets. `stepped`, `spent` and `history` are the machine, the cost and the
cycles after a number of steps; `execute_cases` says that a run on a budget is a run of successive
steps, as many as `Exhausts` tells, and `Exhausts.unique` that there is one such number.
-/

namespace Mos6502.Machine

variable {β : Type} [Bus β]

def next (m : Machine β) : Machine β := m.step.state

def stepped (m : Machine β) (n : ℕ) : Machine β := next^[n] m

/-- The first `n` steps succeed, each answering its cost. -/
def Completes (m : Machine β) (n : ℕ) : Prop :=
  ∀ k < n, (m.stepped k).step.value = .ok (m.stepped k).step.cost

def spent (m : Machine β) (n : ℕ) : ℕ := ∑ k ∈ Finset.range n, (m.stepped k).step.cost

def history (m : Machine β) (n : ℕ) : List Cycle :=
  (List.range n).flatMap fun k => (m.stepped k).step.timeline

@[simp] theorem stepped_zero (m : Machine β) : m.stepped 0 = m := rfl

theorem stepped_succ (m : Machine β) (n : ℕ) : m.stepped (n + 1) = (m.stepped n).next :=
  Function.iterate_succ_apply' next n m

theorem stepped_next (m : Machine β) (n : ℕ) : m.next.stepped n = m.stepped (n + 1) :=
  (Function.iterate_succ_apply next n m).symm

theorem stepped_add (m : Machine β) (n k : ℕ) : m.stepped (n + k) = (m.stepped n).stepped k := by
  rw [stepped, Nat.add_comm]
  exact Function.iterate_add_apply next k n m

@[simp] theorem spent_zero (m : Machine β) : m.spent 0 = 0 := rfl

theorem spent_succ (m : Machine β) (n : ℕ) :
    m.spent (n + 1) = m.spent n + (m.stepped n).step.cost :=
  Finset.sum_range_succ _ n

theorem spent_next (m : Machine β) (n : ℕ) :
    m.spent (n + 1) = m.step.cost + m.next.spent n := by
  rw [spent, Finset.sum_range_succ', add_comm]
  simp only [spent, stepped_next, stepped_zero]

theorem spent_add (m : Machine β) (n k : ℕ) :
    m.spent (n + k) = m.spent n + (m.stepped n).spent k := by
  simp only [spent, Finset.sum_range_add, stepped_add]

theorem history_succ (m : Machine β) (n : ℕ) :
    m.history (n + 1) = m.history n ++ (m.stepped n).step.timeline := by
  simp [history, List.range_succ]

theorem history_next (m : Machine β) (n : ℕ) :
    m.history (n + 1) = m.step.timeline ++ m.next.history n := by
  simp [history, List.range_succ_eq_map, List.flatMap_map, stepped_next]

theorem history_add (m : Machine β) (n k : ℕ) :
    m.history (n + k) = m.history n ++ (m.stepped n).history k := by
  simp only [history, List.range_add, List.flatMap_append, List.flatMap_map, stepped_add]

theorem length_history (m : Machine β) (n : ℕ) : (m.history n).length = m.spent n := by
  induction n with
  | zero => rfl
  | succ n ih => rw [history_succ, List.length_append, ih, spent_succ, Outcome.cost]

theorem completes_zero (m : Machine β) : m.Completes 0 := fun _ hk => absurd hk (Nat.not_lt_zero _)

theorem completes_next {m : Machine β} {n : ℕ} :
    m.Completes (n + 1) ↔ m.step.value = .ok m.step.cost ∧ m.next.Completes n := by
  constructor
  · intro h
    refine ⟨h 0 n.succ_pos, fun k hk => ?_⟩
    rw [stepped_next]
    exact h (k + 1) (Nat.succ_lt_succ hk)
  · rintro ⟨h0, h⟩ k hk
    cases k with
    | zero => exact h0
    | succ k =>
      rw [← stepped_next]
      exact h k (Nat.lt_of_succ_lt_succ hk)

theorem Completes.append {m : Machine β} {n k : ℕ} (hn : m.Completes n)
    (hk : (m.stepped n).Completes k) : m.Completes (n + k) := by
  intro j hj
  by_cases hjn : j < n
  · exact hn j hjn
  · have hrest := hk (j - n) (by omega)
    rwa [← stepped_add, Nat.add_sub_of_le (by omega)] at hrest

theorem completes_iff {m : Machine β} {n : ℕ} :
    m.Completes n ↔ ∀ k < n, (m.stepped k).decoded.isSome := by
  constructor
  · intro h k hk
    cases hd : (m.stepped k).decoded with
    | some e => rfl
    | none =>
      have hv := h k hk
      rw [step_of_unknown hd] at hv
      cases hv
  · intro h k hk
    obtain ⟨e, he⟩ := Option.isSome_iff_exists.mp (h k hk)
    exact step_ok_of_entry he

theorem Completes.decoded {m : Machine β} {n k : ℕ} (h : m.Completes n) (hk : k < n) :
    ∃ e, (m.stepped k).decoded = some e := Option.isSome_iff_exists.mp (completes_iff.mp h k hk)

theorem next_of_entry {m : Machine β} {e : Entry} (h : m.decoded = some e) :
    m.next = e.effect m.operand m := by
  rw [next, step_of_entry h]

theorem stepped_of_entry {m : Machine β} {e : Entry} {k : ℕ}
    (h : (m.stepped k).decoded = some e) :
    m.stepped (k + 1) = e.effect (m.stepped k).operand (m.stepped k) := by
  rw [stepped_succ, next_of_entry h]

/-- On this budget exactly `n` instructions complete. Each is started while some budget is left,
and then none is left or the next instruction fails. -/
structure Exhausts (m : Machine β) (budget : ℤ) (n : ℕ) : Prop where
  completes : m.Completes n
  started : ∀ k < n, (m.spent k : ℤ) < budget
  stopped : (m.spent n : ℤ) < budget → ∃ fault, (m.stepped n).step.value = .error fault

theorem Exhausts.le {m : Machine β} {budget : ℤ} {n k : ℕ} (hn : m.Exhausts budget n)
    (hk : m.Exhausts budget k) : n ≤ k := by
  by_contra hlt
  have hkn : k < n := Nat.lt_of_not_le hlt
  obtain ⟨fault, hf⟩ := hk.stopped (hn.started k hkn)
  rw [hn.completes k hkn] at hf
  cases hf

theorem Exhausts.unique {m : Machine β} {budget : ℤ} {n k : ℕ} (hn : m.Exhausts budget n)
    (hk : m.Exhausts budget k) : n = k := Nat.le_antisymm (hn.le hk) (hk.le hn)

theorem exhausts_zero {m : Machine β} {budget : ℤ} (h : budget ≤ 0) : m.Exhausts budget 0 := by
  constructor
  · exact completes_zero m
  · intro k hk
    exact absurd hk k.not_lt_zero
  · intro hlt
    rw [spent_zero] at hlt
    omega

theorem Exhausts.prepend {m : Machine β} {budget : ℤ} {n : ℕ} (hb : 0 < budget)
    (hv : m.step.value = .ok m.step.cost) (h : m.next.Exhausts (budget - m.step.cost) n) :
    m.Exhausts budget (n + 1) := by
  refine ⟨completes_next.mpr ⟨hv, h.completes⟩, fun k hk => ?_, fun hlt => ?_⟩
  · cases k with
    | zero => simpa using hb
    | succ k =>
      have := h.started k (Nat.lt_of_succ_lt_succ hk)
      rw [spent_next]
      push_cast
      omega
  · rw [← stepped_next]
    rw [spent_next] at hlt
    push_cast at hlt
    exact h.stopped (by omega)

theorem runUntil_cases (budget : ℤ) (used : ℕ) (past : List Cycle) (m : Machine β) :
    ∃ n, m.Exhausts (budget - used) n ∧
      (budget ≤ used + m.spent n ∧ runUntil budget used past m =
          ⟨.ok (used + m.spent n), m.stepped n, past.reverse ++ m.history n⟩ ∨
        used + m.spent n < budget ∧ ∃ fault, (m.stepped n).step.value = .error fault ∧
          runUntil budget used past m =
            ⟨.error fault, m.stepped (n + 1), past.reverse ++ m.history (n + 1)⟩) := by
  fun_induction runUntil budget used past m with
  | case1 used past m hlt cost m' timeline hs _ ih =>
    have hc : m.step.value = .ok cost := by rw [hs]
    have hcost : m.step.cost = cost := (step_value_cost hc).symm
    have hv : m.step.value = .ok m.step.cost := by rw [hc, hcost]
    have hnext : m.next = m' := by rw [next, hs]
    have htl : m.step.timeline = timeline := by rw [hs]
    obtain ⟨n, hn, h⟩ := ih
    refine ⟨n + 1, ?_, ?_⟩
    · apply Exhausts.prepend (by omega) hv
      rw [hnext, hcost]
      push_cast at hn
      rwa [← Int.sub_sub] at hn
    · rw [spent_next, history_next, history_next m (n + 1), ← stepped_next, ← stepped_next, hnext,
        hcost, htl]
      simpa [Nat.add_assoc, Int.add_assoc] using h
  | case2 used past m hlt fault m' timeline hs =>
    have hv : m.step.value = .error fault := by rw [hs]
    refine ⟨0, ⟨completes_zero m, fun k hk => absurd hk k.not_lt_zero, fun _ => ⟨fault, hv⟩⟩, ?_⟩
    refine Or.inr ⟨by simpa using hlt, fault, hv, ?_⟩
    rw [stepped_succ, history_succ, stepped_zero, next, hs]
    simp [history]
  | case3 used past m hge =>
    refine ⟨0, exhausts_zero (by omega), ?_⟩
    exact Or.inl ⟨by simpa using hge, by simp [history]⟩

theorem execute_cases (m : Machine β) (budget : Int32) :
    ∃ n, m.Exhausts budget.toInt n ∧
      (budget.toInt ≤ m.spent n ∧
          m.execute budget = ⟨.ok (min (m.spent n) countLimit), m.stepped n, m.history n⟩ ∨
        m.spent n < budget.toInt ∧ ∃ fault, (m.stepped n).step.value = .error fault ∧
          m.execute budget = ⟨.error fault, m.stepped (n + 1), m.history (n + 1)⟩) := by
  obtain ⟨n, hn, h⟩ := runUntil_cases budget.toInt 0 [] m
  refine ⟨n, by simpa using hn, ?_⟩
  rcases h with ⟨hle, h⟩ | ⟨hlt, fault, hf, h⟩
  · refine Or.inl ⟨by simpa using hle, ?_⟩
    simp [execute, h, Except.map]
  · refine Or.inr ⟨by simpa using hlt, fault, hf, ?_⟩
    simp [execute, h, Except.map]

theorem execute_of_reached {m : Machine β} {budget : Int32} {n : ℕ}
    (h : m.Exhausts budget.toInt n) (hle : budget.toInt ≤ m.spent n) :
    m.execute budget = ⟨.ok (min (m.spent n) countLimit), m.stepped n, m.history n⟩ := by
  obtain ⟨k, hk, ⟨-, he⟩ | ⟨hlt, -⟩⟩ := m.execute_cases budget
  · rw [h.unique hk, he]
  · rw [h.unique hk] at hle
    omega

/-- The step that fails reads the byte it stops at and does nothing else. -/
theorem execute_of_failed {m : Machine β} {budget : Int32} {n : ℕ} {fault : Fault}
    (h : m.Exhausts budget.toInt n) (hlt : m.spent n < budget.toInt)
    (hf : (m.stepped n).step.value = .error fault) :
    m.execute budget =
      ⟨.error fault, m.stepped n, m.history n ++ [(m.stepped n).fetch 0]⟩ := by
  obtain ⟨k, hk, ⟨hle, -⟩ | ⟨-, fault', hf', he⟩⟩ := m.execute_cases budget
  · rw [h.unique hk] at hlt
    omega
  · obtain rfl := h.unique hk
    rw [hf] at hf'
    cases hf'
    have hstop := (step_of_error hf).2
    rw [he, stepped_succ, history_succ, next, hstop]

/-- A run that answers a count has used up its budget. -/
theorem reached_of_ok {m : Machine β} {budget : Int32} {count : ℕ}
    (h : (m.execute budget).value = .ok count) :
    ∃ n, m.Exhausts budget.toInt n ∧ budget.toInt ≤ m.spent n ∧
      count = min (m.spent n) countLimit := by
  obtain ⟨n, hn, ⟨hle, he⟩ | ⟨-, fault, -, he⟩⟩ := m.execute_cases budget
  · rw [he] at h
    exact ⟨n, hn, hle, (Except.ok.inj h).symm⟩
  · rw [he] at h
    cases h

/-- A run that answers a fault has budget left at a step that fails. -/
theorem failed_of_error {m : Machine β} {budget : Int32} {fault : Fault}
    (h : (m.execute budget).value = .error fault) :
    ∃ n, m.Exhausts budget.toInt n ∧ m.spent n < budget.toInt ∧
      (m.stepped n).step.value = .error fault := by
  obtain ⟨n, hn, ⟨-, he⟩ | ⟨hlt, fault', hf, he⟩⟩ := m.execute_cases budget
  · rw [he] at h
    cases h
  · rw [he] at h
    cases h
    exact ⟨n, hn, hlt, hf⟩

theorem execute_cost_of_reached {m : Machine β} {budget : Int32} {n : ℕ}
    (h : m.Exhausts budget.toInt n) (hle : budget.toInt ≤ m.spent n) :
    (m.execute budget).cost = m.spent n := by
  rw [execute_of_reached h hle]
  exact m.length_history n

theorem execute_cost_of_failed {m : Machine β} {budget : Int32} {n : ℕ} {fault : Fault}
    (h : m.Exhausts budget.toInt n) (hlt : m.spent n < budget.toInt)
    (hf : (m.stepped n).step.value = .error fault) :
    (m.execute budget).cost = m.spent n + 1 := by
  rw [execute_of_failed h hlt hf, Outcome.cost, List.length_append, length_history,
    List.length_singleton]

/-- The answer to a run is its cost, as far as the largest count. -/
theorem execute_value_cost {m : Machine β} {budget : Int32} {count : ℕ}
    (h : (m.execute budget).value = .ok count) :
    count = min (m.execute budget).cost countLimit := by
  obtain ⟨n, hn, hle, rfl⟩ := reached_of_ok h
  rw [execute_cost_of_reached hn hle]

end Mos6502.Machine
