import Mos6502.Proofs.Run
import Mos6502.Memory.Basic
/-!
Machines that run alike. `Lockstep` is a relation of machines that a step keeps, and then a whole
run keeps it. If two buses answer alike as long as only permitted cycles take place, then machines
on them run in lockstep while their cycles are permitted. In particular plain memory runs as the
function of its cells does, which is a bus that can be evaluated.
-/

namespace Mos6502

variable {β γ : Type} [Bus β] [Bus γ]

/-- A relation of buses that permitted cycles cannot tell apart and do not break. -/
structure Simulation (permitted : Cycle → Prop) (R : β → γ → Prop) : Prop where
  read : ∀ {b c a}, R b c → permitted (.read a (Bus.read b a)) → Bus.read b a = Bus.read c a
  write : ∀ {b c a v}, R b c → permitted (.write a v) → R (Bus.write b a v) (Bus.write c a v)

variable {permitted : Cycle → Prop} {R : β → γ → Prop}

/-- Runs that have the same result and cycles and end on related states. -/
structure Outcome.Alike {σ τ α : Type} (S : σ → τ → Prop) (o : Outcome σ α) (q : Outcome τ α) :
    Prop where
  value : o.value = q.value
  timeline : o.timeline = q.timeline
  state : S o.state q.state

theorem Simulation.runOn {α : Type} (hR : Simulation permitted R) (p : BusM α) {b : β} {c : γ}
    (h : R b c) (hp : ∀ x ∈ (p.runOn b).timeline, permitted x) :
    Outcome.Alike R (p.runOn b) (p.runOn c) := by
  induction p generalizing b c with
  | done a => exact ⟨rfl, rfl, h⟩
  | read a next ih =>
    simp only [BusM.runOn, Outcome.timeline_after, List.cons_append, List.nil_append,
      List.forall_mem_cons] at hp
    have hread := hR.read h hp.1
    obtain ⟨hv, ht, hs⟩ := ih _ h hp.2
    simp only [BusM.runOn, ← hread]
    exact ⟨hv, congrArg _ ht, hs⟩
  | write a v next ih =>
    simp only [BusM.runOn, Outcome.timeline_after, List.cons_append, List.nil_append,
      List.forall_mem_cons] at hp
    obtain ⟨hv, ht, hs⟩ := ih (hR.write h hp.1) hp.2
    exact ⟨hv, congrArg _ ht, hs⟩
  | idle next ih =>
    simp only [BusM.runOn, Outcome.timeline_after, List.cons_append, List.nil_append,
      List.forall_mem_cons] at hp
    obtain ⟨hv, ht, hs⟩ := ih h hp.2
    exact ⟨hv, congrArg _ ht, hs⟩

namespace Machine

def Related (R : β → γ → Prop) (m : Machine β) (q : Machine γ) : Prop :=
  m.cpu = q.cpu ∧ R m.bus q.bus

theorem Related.run {α : Type} (hR : Simulation permitted R) {m : Machine β} {q : Machine γ}
    (h : Related R m q) (p : CpuM α) (hp : ∀ x ∈ (m.run p).timeline, permitted x) :
    Outcome.Alike (Related R) (m.run p) (q.run p) := by
  obtain ⟨cpu, b⟩ := m
  obtain ⟨cpu', c⟩ := q
  obtain ⟨rfl, hbus⟩ : cpu = cpu' ∧ R b c := h
  obtain ⟨hv, ht, hs⟩ := hR.runOn (p.run cpu) hbus hp
  exact ⟨congrArg Prod.fst hv, ht, congrArg Prod.snd hv, hs⟩

theorem Related.step (hR : Simulation permitted R) {m : Machine β} {q : Machine γ}
    (h : Related R m q) (hp : ∀ x ∈ m.step.timeline, permitted x) :
    Outcome.Alike (Related R) m.step q.step := by
  rw [step_eq_run] at hp
  obtain ⟨hv, ht, hs⟩ := h.run hR CpuM.instruction hp
  rw [step_eq_run, step_eq_run]
  exact ⟨by rw [hv, Outcome.cost, ht, Outcome.cost], ht, hs⟩

/-- A relation of machines that a step keeps: on both sides it is made in the same way, as long as
its cycles are permitted. -/
structure Lockstep (permitted : Cycle → Prop) (S : Machine β → Machine γ → Prop) : Prop where
  step : ∀ {m q}, S m q → (∀ x ∈ m.step.timeline, permitted x) → Outcome.Alike S m.step q.step

theorem Related.lockstep (hR : Simulation permitted R) : Lockstep permitted (Related R) where
  step h hp := h.step hR hp

theorem mem_history_of_le {m : Machine β} {k n : ℕ} (h : k ≤ n) {x : Cycle}
    (hx : x ∈ m.history k) : x ∈ m.history n := by
  obtain ⟨j, rfl⟩ := Nat.exists_eq_add_of_le h
  rw [history_add]
  exact List.mem_append_left _ hx

namespace Lockstep

variable {S : Machine β → Machine γ → Prop} {m : Machine β} {q : Machine γ} {n : ℕ}

theorem stepped (hS : Lockstep permitted S) (h : S m q) (n : ℕ)
    (hp : ∀ x ∈ m.history n, permitted x) : S (m.stepped n) (q.stepped n) := by
  induction n with
  | zero => exact h
  | succ n ih =>
    rw [history_succ] at hp
    have hn := ih fun x hx => hp x (List.mem_append_left _ hx)
    rw [stepped_succ, stepped_succ]
    exact (hS.step hn fun x hx => hp x (List.mem_append_right _ hx)).state

/-- Every step of a permitted run is made by both machines in the same way. -/
theorem step_at (hS : Lockstep permitted S) (h : S m q) (hp : ∀ x ∈ m.history n, permitted x)
    {k : ℕ} (hk : k < n) : Outcome.Alike S (m.stepped k).step (q.stepped k).step := by
  have hbefore := hS.stepped h k fun x hx => hp x (mem_history_of_le (Nat.le_of_lt hk) hx)
  apply hS.step hbefore
  intro x hx
  apply hp x (mem_history_of_le (show k + 1 ≤ n from hk) _)
  rw [history_succ]
  exact List.mem_append_right _ hx

theorem history (hS : Lockstep permitted S) (h : S m q) (hp : ∀ x ∈ m.history n, permitted x)
    {k : ℕ} (hk : k ≤ n) : m.history k = q.history k := by
  induction k with
  | zero => rfl
  | succ k ih => rw [history_succ, history_succ, ih (by omega), (hS.step_at h hp hk).timeline]

theorem spent (hS : Lockstep permitted S) (h : S m q) (hp : ∀ x ∈ m.history n, permitted x)
    {k : ℕ} (hk : k ≤ n) : m.spent k = q.spent k := by
  rw [← length_history, ← length_history, hS.history h hp hk]

theorem completes (hS : Lockstep permitted S) (h : S m q) (hp : ∀ x ∈ m.history n, permitted x)
    (hc : m.Completes n) : q.Completes n := by
  intro k hk
  have halike := hS.step_at h hp hk
  rw [← halike.value, hc k hk, Outcome.cost, Outcome.cost, halike.timeline]

theorem exhausts (hS : Lockstep permitted S) (h : S m q) (hp : ∀ x ∈ m.history n, permitted x)
    {budget : ℤ} (hn : m.Exhausts budget n)
    (hstop : m.spent n < budget → ∃ fault, (q.stepped n).step.value = .error fault) :
    q.Exhausts budget n := by
  constructor
  · exact hS.completes h hp hn.completes
  · intro k hk
    rw [← hS.spent h hp (Nat.le_of_lt hk)]
    exact hn.started k hk
  · intro hlt
    rw [← hS.spent h hp (Nat.le_refl n)] at hlt
    exact hstop hlt

/-- Machines in lockstep run a budget alike. -/
theorem execute (hS : Lockstep permitted S) (h : S m q) (budget : Int32)
    (hp : ∀ x ∈ (m.execute budget).timeline, permitted x) :
    Outcome.Alike S (m.execute budget) (q.execute budget) := by
  obtain ⟨n, hn, ⟨hle, he⟩ | ⟨hlt, fault, hf, he⟩⟩ := m.execute_cases budget
  · rw [he] at hp
    have hspent := hS.spent h hp (Nat.le_refl n)
    have hq := hS.exhausts h hp hn fun hlt => by omega
    rw [he, execute_of_reached hq (by omega), hspent]
    exact ⟨rfl, hS.history h hp (Nat.le_refl n), hS.stepped h n hp⟩
  · -- the fetch that fails is a step of the run as well, so the other machine fails there too
    rw [he] at hp
    have hqf : (q.stepped n).step.value = .error fault := by
      rw [← (hS.step_at h hp n.lt_succ_self).value, hf]
    have hq := hS.exhausts h (fun x hx => hp x (mem_history_of_le n.le_succ hx)) hn
      fun _ => ⟨fault, hqf⟩
    have hspent := hS.spent h hp n.le_succ
    have hrun : q.execute budget = ⟨.error fault, q.stepped (n + 1), q.history (n + 1)⟩ := by
      rw [execute_of_failed hq (by omega) hqf, stepped_succ, history_succ, next,
        (step_of_error hqf).2]
    rw [he, hrun]
    exact ⟨rfl, hS.history h hp (Nat.le_refl _), hS.stepped h (n + 1) hp⟩

end Lockstep

end Machine

/-- A function of addresses is a bus whose cells it gives. -/
instance cellsBus : Bus (UInt16 → UInt8) where
  clear _ := fun _ => 0
  read cells address := cells address
  write cells address v := fun a => if address = a then v else cells a

theorem memory_simulation :
    Simulation (fun _ => True) fun (m : Memory) (cells : UInt16 → UInt8) => m.read = cells where
  read := by
    rintro m cells a rfl -
    rfl
  write := by
    rintro m cells a v rfl -
    funext b
    exact m.read_write a b v

namespace Machine

def onCells (m : Machine Memory) : Machine (UInt16 → UInt8) := ⟨m.cpu, m.bus.read⟩

theorem stepped_onCells (m : Machine Memory) (n : ℕ) :
    (m.stepped n).onCells = m.onCells.stepped n := by
  obtain ⟨hcpu, hbus⟩ := (Related.lockstep memory_simulation).stepped (q := m.onCells) ⟨rfl, rfl⟩ n
    fun _ _ => trivial
  rw [onCells, hcpu, hbus]

theorem history_onCells (m : Machine Memory) (n : ℕ) : m.history n = m.onCells.history n := by
  have h : Related (fun (memory : Memory) cells => memory.read = cells) m m.onCells := ⟨rfl, rfl⟩
  exact (Related.lockstep memory_simulation).history h (fun _ _ => trivial) (Nat.le_refl n)

end Machine

end Mos6502
