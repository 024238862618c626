import Mos6502.Proofs.Budget
/-!
Budgets in slices. Running on a budget is running on a smaller one first and then, from where that
ended, on what is left: `execute_split`. By induction a budget may be handed out in any number of
slices, each less what the one before has overshot, and `budgets_compose` gathers both.
-/

namespace Mos6502

namespace Outcome

variable {β : Type} {first : Outcome (Machine β) (Except Fault ℕ)}
  {rest rest' : ℕ → Machine β → Outcome (Machine β) (Except Fault ℕ)}

/-- Goes on after a counted run, unless it failed. The counts add up, as far as the largest. -/
def andThen (first : Outcome (Machine β) (Except Fault ℕ))
    (rest : ℕ → Machine β → Outcome (Machine β) (Except Fault ℕ)) :
    Outcome (Machine β) (Except Fault ℕ) :=
  match first.value with
  | .error _ => first
  | .ok used =>
    ⟨(rest used first.state).value.map fun more => min (used + more) Machine.countLimit,
      (rest used first.state).state, first.timeline ++ (rest used first.state).timeline⟩

theorem andThen_of_error {fault : Fault} (h : first.value = .error fault) :
    first.andThen rest = first := by
  simp only [andThen, h]

theorem andThen_of_ok {used : ℕ} (h : first.value = .ok used) :
    first.andThen rest =
      ⟨(rest used first.state).value.map fun more => min (used + more) Machine.countLimit,
        (rest used first.state).state, first.timeline ++ (rest used first.state).timeline⟩ := by
  simp only [andThen, h]

theorem andThen_of_idle {used : ℕ} (h : first.value = .ok used)
    (hused : used ≤ Machine.countLimit) (hrest : rest used first.state = ⟨.ok 0, first.state, []⟩) :
    first.andThen rest = first := by
  obtain ⟨value, state, timeline⟩ := first
  obtain rfl : value = .ok used := h
  rw [andThen_of_ok rfl, hrest]
  simp only [Except.map, Nat.add_zero, Nat.min_eq_left hused, List.append_nil]

theorem andThen_congr
    (h : ∀ used, first.value = .ok used → rest used first.state = rest' used first.state) :
    first.andThen rest = first.andThen rest' := by
  cases hv : first.value with
  | error fault => rw [andThen_of_error hv, andThen_of_error hv]
  | ok used => rw [andThen_of_ok hv, andThen_of_ok hv, h used hv]

end Outcome

namespace Machine

variable {β : Type} [Bus β]

/-- What a small budget runs is the beginning of what a larger one runs. -/
theorem Exhausts.extend {m : Machine β} {first whole : ℤ} {n k : ℕ} (hn : m.Exhausts first n)
    (hle : first ≤ whole) (hk : (m.stepped n).Exhausts (whole - m.spent n) k) :
    m.Exhausts whole (n + k) := by
  constructor
  · exact hn.completes.append hk.completes
  · intro j hj
    by_cases hjn : j < n
    · have := hn.started j hjn
      omega
    · have hrest := hk.started (j - n) (by omega)
      have hspent := m.spent_add n (j - n)
      rw [Nat.add_sub_of_le (by omega)] at hspent
      omega
  · intro hlt
    rw [spent_add] at hlt
    rw [stepped_add]
    exact hk.stopped (by omega)

theorem execute_count_le {m : Machine β} {budget : Int32} {used : ℕ}
    (h : (m.execute budget).value = .ok used) : used ≤ countLimit := by
  obtain ⟨n, -, -, rfl⟩ := reached_of_ok h
  exact Nat.min_le_right _ _

/-- A run stops at most five cycles late; a budget that is used up from the start runs nothing. -/
theorem execute_count_bounds {m : Machine β} {budget : Int32} {used : ℕ}
    (h : (m.execute budget).value = .ok used) :
    budget.toInt ≤ used ∧ (used : ℤ) ≤ max 0 (budget.toInt + 5) := by
  by_cases hb : 0 < budget.toInt
  · have hbounds := execute_ok_bounds hb h
    omega
  · rw [execute_idle (by omega)] at h
    cases h
    omega

/-- What a run leaves of a larger budget is never out of range. -/
theorem toInt_left {whole : Int32} {used : ℕ} (hused : used ≤ countLimit)
    (hwhole : used = 0 ∨ 0 ≤ whole.toInt) :
    (whole - .ofNat used).toInt = whole.toInt - used := by
  have hlimit : countLimit = 2147483647 := rfl
  have hmin := whole.le_toInt
  have hmax := whole.toInt_lt
  rw [Int32.toInt_sub, Int32.toInt_ofNat_of_lt (by omega)]
  apply Int.bmod_eq_of_le
  · omega
  · omega

theorem toInt_left_of_ok {m : Machine β} {first whole : Int32} (hle : first.toInt ≤ whole.toInt)
    {used : ℕ} (h : (m.execute first).value = .ok used) :
    (whole - .ofNat used).toInt = whole.toInt - used := by
  apply toInt_left (execute_count_le h)
  by_cases hb : 0 ≤ whole.toInt
  · exact Or.inr hb
  · rw [execute_idle (by omega)] at h
    cases h
    exact Or.inl rfl

/-- A budget that a run has reached already runs no more than the smaller one. -/
theorem execute_of_covered {m : Machine β} {first whole : Int32} {n : ℕ}
    (hn : m.Exhausts first.toInt n) (hle : first.toInt ≤ whole.toInt)
    (hcov : whole.toInt ≤ m.spent n) : m.execute whole = m.execute first := by
  have hwhole : m.Exhausts whole.toInt n := hn.extend hle (exhausts_zero (by omega))
  rw [execute_of_reached hn (by omega), execute_of_reached hwhole hcov]

theorem execute_of_left {m : Machine β} {first whole left : Int32} {n : ℕ}
    (hn : m.Exhausts first.toInt n) (hle : first.toInt ≤ whole.toInt)
    (hleft : left.toInt = whole.toInt - m.spent n) :
    m.execute whole =
      ⟨((m.stepped n).execute left).value.map fun more => min (m.spent n + more) countLimit,
        ((m.stepped n).execute left).state,
        m.history n ++ ((m.stepped n).execute left).timeline⟩ := by
  obtain ⟨k, hk, hcases⟩ := (m.stepped n).execute_cases left
  have hwhole : m.Exhausts whole.toInt (n + k) := by
    rw [hleft] at hk
    exact hn.extend hle hk
  have hspent := m.spent_add n k
  rcases hcases with ⟨hreach, he⟩ | ⟨hlt, fault, hf, -⟩
  · have hcount : min (m.spent n + min ((m.stepped n).spent k) countLimit) countLimit =
        min (m.spent (n + k)) countLimit := by omega
    rw [execute_of_reached hwhole (by omega), he, Except.map, hcount, history_add, stepped_add]
  · have hfail : (m.stepped (n + k)).step.value = .error fault := by rwa [stepped_add]
    rw [execute_of_failed hwhole (by omega) hfail, execute_of_failed hk hlt hf, Except.map,
      history_add, stepped_add, List.append_assoc]

/-- Whatever the first part comes to, going on with what it leaves of the whole is one run. -/
theorem execute_split (m : Machine β) {first whole : Int32} (h : first.toInt ≤ whole.toInt) :
    m.execute whole =
      (m.execute first).andThen fun used rest => rest.execute (whole - .ofNat used) := by
  obtain ⟨n, hn, ⟨hle, he⟩ | ⟨hlt, fault, hf, -⟩⟩ := m.execute_cases first
  · have hv : (m.execute first).value = .ok (min (m.spent n) countLimit) := by rw [he]
    have hleft := toInt_left_of_ok h hv
    have hmax := whole.toInt_lt
    have hlimit : countLimit = 2147483647 := rfl
    by_cases hcov : whole.toInt ≤ m.spent n
    · rw [execute_of_covered hn h hcov,
        Outcome.andThen_of_idle hv (execute_count_le hv) (execute_idle (by omega))]
    · have hcount : min (m.spent n) countLimit = m.spent n := by omega
      rw [hcount] at hv hleft
      rw [Outcome.andThen_of_ok hv, execute_of_left hn h hleft, he]
  · have hfirst := execute_of_failed hn hlt hf
    have hv : (m.execute first).value = .error fault := by rw [hfirst]
    rw [Outcome.andThen_of_error hv, hfirst]
    exact execute_of_failed (.of_failed hn.completes (by omega) hf) (by omega) hf

/-- Runs on slices of a budget one after the other. What a slice overshoots its budget by is taken
off the next. -/
def executeSlices (overshoot : ℕ) : List ℕ → Machine β → Outcome (Machine β) (Except Fault ℕ)
  | [], m => ⟨.ok 0, m, []⟩
  | slice :: slices, m =>
    (m.execute (.ofInt (slice - overshoot))).andThen fun used rest =>
      executeSlices (used + overshoot - slice) slices rest

theorem execute_eq_slices (m : Machine β) (slices : List ℕ) {overshoot : ℕ} (ho : overshoot ≤ 5)
    (hsum : slices.sum ≤ countLimit) :
    m.execute (.ofInt (slices.sum - overshoot)) = m.executeSlices overshoot slices := by
  have hlimit : countLimit = 2147483647 := rfl
  induction slices generalizing m overshoot with
  | nil =>
    apply execute_idle
    rw [Int32.toInt_ofInt_of_le (by simp; omega) (by simp; omega)]
    simp
  | cons slice slices ih =>
    rw [List.sum_cons] at hsum ⊢
    have hfirst : (Int32.ofInt (slice - overshoot)).toInt = slice - overshoot :=
      Int32.toInt_ofInt_of_le (by omega) (by omega)
    have hwhole : (Int32.ofInt ((slice + slices.sum : ℕ) - overshoot)).toInt =
        (slice + slices.sum : ℕ) - overshoot :=
      Int32.toInt_ofInt_of_le (by omega) (by omega)
    have hle : (Int32.ofInt (slice - overshoot)).toInt ≤
        (Int32.ofInt ((slice + slices.sum : ℕ) - overshoot)).toInt := by omega
    rw [m.execute_split hle, executeSlices]
    apply Outcome.andThen_congr
    intro used hused
    -- what is overshot now is again at most five, so the rest of the slices is the same statement
    have hbounds := execute_count_bounds hused
    rw [← ih _ (by omega) (by omega)]
    congr 1
    rw [← Int32.ofInt_eq_ofNat, ← Int32.ofInt_sub]
    congr 1
    omega

/-- How a run on a whole budget is put together from runs on parts of it. -/
structure BudgetsCompose (m : Machine β) (first whole : Int32) : Prop where
  failed : ∀ fault, (m.execute first).value = .error fault → m.execute whole = m.execute first
  covered : ∀ used, (m.execute first).value = .ok used → whole.toInt ≤ used →
    m.execute whole = m.execute first
  resumed : ∀ used, (m.execute first).value = .ok used → used < whole.toInt →
    (whole - .ofNat used).toInt = whole.toInt - used ∧
    let rest := (m.execute first).state.execute (whole - .ofNat used)
    m.execute whole =
      ⟨rest.value.map fun more => min (used + more) countLimit, rest.state,
        (m.execute first).timeline ++ rest.timeline⟩
  sliced : ∀ slices : List ℕ, slices.sum = whole.toInt →
    m.execute whole = m.executeSlices 0 slices

theorem budgets_compose (m : Machine β) {first whole : Int32} (h : first ≤ whole) :
    BudgetsCompose m first whole := by
  rw [Int32.le_iff_toInt_le] at h
  have hsplit := m.execute_split h
  constructor
  · intro fault hf
    rw [hsplit, Outcome.andThen_of_error hf]
  · intro used hused hcov
    have hleft := toInt_left_of_ok h hused
    rw [hsplit]
    exact Outcome.andThen_of_idle hused (execute_count_le hused) (execute_idle (by omega))
  · intro used hused hlt
    rw [hsplit, Outcome.andThen_of_ok hused]
    exact ⟨toInt_left_of_ok h hused, rfl⟩
  · intro slices hsum
    have hmax := whole.toInt_lt
    have hlimit : countLimit = 2147483647 := rfl
    rw [← m.execute_eq_slices slices (Nat.zero_le 5) (by omega), hsum]
    simp

/-- A single instruction, and behind it a byte that is none. -/
def nopThenUnknown : Machine Memory where
  cpu := .initial
  bus := .ofFn fun address => if address = resetVector then 0xEA else 0x02

theorem nop_then_unknown_composes :
    (1 : Int32) ≤ 5 ∧ BudgetsCompose nopThenUnknown 1 5 ∧
    (nopThenUnknown.execute 1).value = .ok 2 ∧
    (nopThenUnknown.execute 5).value = .error (.unknownOpcode 0x02 0xFFFD) := by
  have hread (address : UInt16) : Bus.read nopThenUnknown.bus address =
      if address = resetVector then 0xEA else 0x02 := by
    rw [nopThenUnknown, Memory.bus_read, Memory.read_ofFn]
  have hnop : nopThenUnknown.decoded = some ⟨.nop, .implicit, 2⟩ := by
    rw [decoded, opcode, hread]
    rfl
  have hend : nopThenUnknown.stepped 1 = nopThenUnknown.skip 1 := stepped_of_entry (k := 0) hnop
  have hunknown : (nopThenUnknown.skip 1).decoded = none := by
    rw [decoded, opcode, skip_bus, hread]
    rfl
  have hfails : (nopThenUnknown.skip 1).step.value = .error (.unknownOpcode 0x02 0xFFFD) := by
    rw [step_of_unknown hunknown, opcode, skip_bus, hread]
    rfl
  have hcost : nopThenUnknown.spent 1 = 2 := by
    rw [spent_next, spent_zero, step_of_entry hnop]
    rfl
  have hone : nopThenUnknown.Exhausts (1 : Int32).toInt 1 := by
    apply Exhausts.of_reached (Nat.le_refl 1) _ (by decide) (by rw [hcost]; decide)
    rw [completes_next, step_of_entry hnop]
    exact ⟨rfl, completes_zero _⟩
  have hfirst := execute_of_reached hone (by rw [hcost]; decide)
  have hv : (nopThenUnknown.execute 1).value = .ok 2 := by rw [hfirst, hcost]; rfl
  have hstate : (nopThenUnknown.execute 1).state = nopThenUnknown.skip 1 := by rw [hfirst, hend]
  have hrest : ((nopThenUnknown.skip 1).execute 3).value = .error (.unknownOpcode 0x02 0xFFFD) := by
    have hnone : (nopThenUnknown.skip 1).Exhausts (3 : Int32).toInt 0 :=
      .of_failed (completes_zero _) (by decide) hfails
    rw [execute_of_failed hnone (by decide) hfails]
  have hle : (1 : Int32) ≤ 5 := by decide
  have hcompose := budgets_compose nopThenUnknown hle
  have hleft : (5 : Int32) - .ofNat 2 = 3 := by decide
  refine ⟨hle, hcompose, hv, ?_⟩
  rw [(hcompose.resumed 2 hv (by decide)).2, hstate, hleft]
  dsimp only
  rw [hrest]
  rfl

end Machine

end Mos6502
