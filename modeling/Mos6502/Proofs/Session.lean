import Mos6502.Proofs.Budget
import Mos6502.Proofs.Simulation
/-!
Sessions. A caller asks a machine for single steps and for runs on a budget, one request after the
other, and may go on after a failure. A request fails only at a byte that is no instruction; the
machine then stands at that byte as the instruction before it left everything, and `serve_halted`
says that no later request moves it. `Performs` counts the instructions that a session completes:
they are successive steps, wherever one request ends and the next begins.
-/

namespace Mos6502

inductive Request where
  | step
  | execute (budget : Int32)
  deriving DecidableEq

/-- What a machine that cannot go on answers: only a request to run nothing succeeds. -/
def Request.refusal (fault : Fault) : Request → Except Fault ℕ
  | step => .error fault
  | execute budget => if 0 < budget.toInt then .error fault else .ok 0

namespace Machine

variable {β : Type} [Bus β]

def answer (m : Machine β) : Request → Outcome (Machine β) (Except Fault ℕ)
  | .step => m.step
  | .execute budget => m.execute budget

/-- Serves requests in turn and answers each. -/
def serve (m : Machine β) : List Request → Outcome (Machine β) (List (Except Fault ℕ))
  | [] => ⟨[], m, []⟩
  | r :: requests =>
    let rest := (m.answer r).state.serve requests
    ⟨(m.answer r).value :: rest.value, rest.state, (m.answer r).timeline ++ rest.timeline⟩

theorem step_fails_iff (m : Machine β) :
    (∃ fault, m.step.value = .error fault) ↔ m.decoded = none := by
  constructor
  · rintro ⟨fault, hf⟩
    exact (step_of_error hf).1
  · intro hd
    exact ⟨_, by rw [step_of_unknown hd]⟩

/-- The machine stands at a byte that is no instruction, `fault` names it, and that is final. -/
structure HaltedBy (m : Machine β) (fault : Fault) : Prop where
  unknown : Entry.ofOpcode? (Bus.read m.bus m.cpu.pc) = none
  named : fault = .unknownOpcode (Bus.read m.bus m.cpu.pc) m.cpu.pc
  final : ∀ requests, (m.serve requests).value = requests.map (Request.refusal fault) ∧
    (m.serve requests).state = m

theorem answer_of_fails {m : Machine β} {fault : Fault} (hf : m.step.value = .error fault)
    (r : Request) : (m.answer r).value = r.refusal fault ∧ (m.answer r).state = m := by
  cases r with
  | step =>
    rw [answer, (step_of_error hf).2]
    exact ⟨rfl, rfl⟩
  | execute budget =>
    rw [answer, Request.refusal]
    by_cases hb : 0 < budget.toInt
    · have hnone : m.Exhausts budget.toInt 0 := .of_failed (completes_zero m) (by simpa using hb) hf
      rw [execute_of_failed hnone (by simpa using hb) hf, if_pos hb]
      exact ⟨rfl, rfl⟩
    · rw [execute_idle (by omega), if_neg hb]
      exact ⟨rfl, rfl⟩

theorem serve_halted {m : Machine β} {fault : Fault} (hf : m.step.value = .error fault)
    (requests : List Request) :
    (m.serve requests).value = requests.map (Request.refusal fault) ∧
      (m.serve requests).state = m := by
  induction requests with
  | nil => exact ⟨rfl, rfl⟩
  | cons r requests ih =>
    obtain ⟨hv, hs⟩ := answer_of_fails hf r
    simp only [serve, hv, hs, List.map_cons]
    exact ⟨congrArg _ ih.1, ih.2⟩

theorem haltedBy_of_fails {m : Machine β} {fault : Fault} (hf : m.step.value = .error fault) :
    m.HaltedBy fault := by
  have hd := (step_of_error hf).1
  constructor
  · exact hd
  · rw [step_of_unknown hd] at hf
    exact (Except.error.inj hf).symm
  · exact serve_halted hf

/-- A failed request leaves the machine at the byte that the fault names. -/
theorem answer_error {m : Machine β} {r : Request} {fault : Fault}
    (h : (m.answer r).value = .error fault) :
    fault = .unknownOpcode (m.answer r).state.opcode (m.answer r).state.cpu.pc := by
  cases r with
  | step =>
    rw [answer] at h ⊢
    rw [(step_of_error h).2]
    exact (haltedBy_of_fails h).named
  | execute budget =>
    obtain ⟨n, hn, hlt, hf⟩ := failed_of_error h
    rw [answer, execute_of_failed hn hlt hf]
    exact (haltedBy_of_fails hf).named

/-- How a machine fails: at an unknown byte only, and there for good. -/
structure FailsCleanly (m : Machine β) : Prop where
  fails_iff : (∃ fault, m.step.value = .error fault) ↔
    Entry.ofOpcode? (Bus.read m.bus m.cpu.pc) = none
  step : ∀ fault, m.step.value = .error fault → m.step.state = m ∧ m.HaltedBy fault
  /-- The state is the one that the completed instructions of the run have left. -/
  execute : ∀ budget fault, (m.execute budget).value = .error fault →
    ∃ n, m.Completes n ∧ m.spent n < budget.toInt ∧ (m.execute budget).state = m.stepped n ∧
      (m.stepped n).HaltedBy fault

theorem fails_cleanly (m : Machine β) : m.FailsCleanly := by
  constructor
  · exact m.step_fails_iff
  · intro fault hf
    rw [(step_of_error hf).2]
    exact ⟨rfl, haltedBy_of_fails hf⟩
  · intro budget fault hv
    obtain ⟨n, hn, ⟨-, he⟩ | ⟨hlt, fault', hf, -⟩⟩ := m.execute_cases budget
    · rw [he] at hv
      cases hv
    · rw [execute_of_failed hn hlt hf] at hv ⊢
      cases hv
      exact ⟨n, hn.completes, hlt, rfl, haltedBy_of_fails hf⟩

end Machine

/-- A single step starts what a budget of one cycle starts. -/
def Request.budget : Request → ℤ
  | step => 1
  | execute budget => budget.toInt

namespace Machine

variable {β γ : Type} [Bus β] [Bus γ] {m : Machine β} {requests : List Request} {n : ℕ}

theorem exhausts_step (m : Machine β) :
    ∃ n, m.Exhausts 1 n ∧ m.step.state = m.stepped n ∧
      (m.step.timeline = m.history n ∨
        m.step.timeline = m.history n ++ [(m.stepped n).fetch 0]) := by
  cases hv : m.step.value with
  | error fault =>
    refine ⟨0, .of_failed (completes_zero m) (by simp) hv, ?_⟩
    rw [(step_of_error hv).2]
    exact ⟨rfl, Or.inr rfl⟩
  | ok cost =>
    obtain rfl := step_value_cost hv
    have hcost := (step_cost_bounds hv).1
    have hone : m.Completes 1 := completes_next.mpr ⟨hv, completes_zero _⟩
    have hspent : m.spent 1 = m.step.cost := m.spent_next 0
    refine ⟨1, .of_reached (Nat.le_refl 1) hone (by simp) (by omega), rfl, Or.inl ?_⟩
    rw [history_next]
    exact (List.append_nil _).symm

theorem exhausts_answer (m : Machine β) (r : Request) :
    ∃ n, m.Exhausts r.budget n ∧ (m.answer r).state = m.stepped n ∧
      ((m.answer r).timeline = m.history n ∨
        (m.answer r).timeline = m.history n ++ [(m.stepped n).fetch 0]) := by
  cases r with
  | step => exact m.exhausts_step
  | execute budget =>
    obtain ⟨n, hn, ⟨hle, -⟩ | ⟨hlt, fault, hf, -⟩⟩ := m.execute_cases budget
    · refine ⟨n, hn, ?_⟩
      rw [answer, execute_of_reached hn hle]
      exact ⟨rfl, Or.inl rfl⟩
    · refine ⟨n, hn, ?_⟩
      rw [answer, execute_of_failed hn hlt hf]
      exact ⟨rfl, Or.inr rfl⟩

theorem Exhausts.answer {r : Request} (h : m.Exhausts r.budget n) :
    (m.answer r).state = m.stepped n ∧
      ((m.answer r).timeline = m.history n ∨
        (m.answer r).timeline = m.history n ++ [(m.stepped n).fetch 0]) := by
  obtain ⟨k, hk, hanswer⟩ := m.exhausts_answer r
  rw [h.unique hk]
  exact hanswer

/-- Exactly `n` instructions complete while the requests are served. -/
inductive Performs : Machine β → List Request → ℕ → Prop
  | nil (m : Machine β) : Performs m [] 0
  | cons {m : Machine β} {r : Request} {requests : List Request} {j k : ℕ} :
      m.Exhausts r.budget j → Performs (m.stepped j) requests k →
      Performs m (r :: requests) (j + k)

theorem exists_performs (m : Machine β) (requests : List Request) : ∃ n, m.Performs requests n := by
  induction requests generalizing m with
  | nil => exact ⟨0, .nil m⟩
  | cons r requests ih =>
    obtain ⟨j, hj, -⟩ := m.exhausts_answer r
    obtain ⟨k, hk⟩ := ih (m.stepped j)
    exact ⟨j + k, .cons hj hk⟩

namespace Performs

theorem unique {k : ℕ} (hn : m.Performs requests n) (hk : m.Performs requests k) : n = k := by
  induction hn generalizing k with
  | nil =>
    cases hk
    rfl
  | cons hj _ ih =>
    cases hk with
    | cons hj' hrest =>
      obtain rfl := hj.unique hj'
      rw [ih hrest]

theorem completes (h : m.Performs requests n) : m.Completes n := by
  induction h with
  | nil m => exact completes_zero m
  | cons hj _ ih => exact hj.completes.append ih

theorem state (h : m.Performs requests n) : (m.serve requests).state = m.stepped n := by
  induction h with
  | nil => rfl
  | cons hj _ ih => rw [serve, hj.answer.1, stepped_add, ← ih]

/-- A session writes what its completed instructions write; a failed fetch writes nothing. -/
theorem write_mem (h : m.Performs requests n) {a : UInt16} {v : UInt8}
    (hw : .write a v ∈ (m.serve requests).timeline) : .write a v ∈ m.history n := by
  induction h with
  | nil => exact absurd hw List.not_mem_nil
  | cons hj _ ih =>
    rw [serve, hj.answer.1] at hw
    rw [history_add, List.mem_append]
    rcases List.mem_append.mp hw with hfirst | hrest
    · rcases hj.answer.2 with ht | ht
      · rw [ht] at hfirst
        exact Or.inl hfirst
      · rw [ht, List.mem_append] at hfirst
        exact Or.inl (hfirst.resolve_right (by simp [fetch]))
    · exact Or.inr (ih hrest)

end Performs

section Lockstep

variable {permitted : Cycle → Prop} {S : Machine β → Machine γ → Prop} {R : β → γ → Prop}
  {q : Machine γ}

theorem Lockstep.answer (hS : Lockstep permitted S) (h : S m q) (r : Request)
    (hp : ∀ x ∈ (m.answer r).timeline, permitted x) :
    Outcome.Alike S (m.answer r) (q.answer r) := by
  cases r with
  | step => exact hS.step h hp
  | execute budget => exact hS.execute h budget hp

theorem Lockstep.serve (hS : Lockstep permitted S) (h : S m q) (requests : List Request)
    (hp : ∀ x ∈ (m.serve requests).timeline, permitted x) :
    Outcome.Alike S (m.serve requests) (q.serve requests) := by
  induction requests generalizing m q with
  | nil => exact ⟨rfl, rfl, h⟩
  | cons r requests ih =>
    obtain ⟨hv, ht, hs⟩ := hS.answer h r fun x hx => hp x (List.mem_append_left _ hx)
    obtain ⟨hvs, hts, hss⟩ := ih hs fun x hx => hp x (List.mem_append_right _ hx)
    constructor
    · simp only [Machine.serve, hv, hvs]
    · simp only [Machine.serve, ht, hts]
    · exact hss

/-- Machines in lockstep complete the same instructions. -/
theorem Lockstep.performs (hS : Lockstep (fun _ => True) S) (h : S m q)
    (hn : m.Performs requests n) : q.Performs requests n := by
  induction hn generalizing q with
  | nil m => exact .nil q
  | @cons m r requests j k hj _ ih =>
    have hnext := hS.stepped h j fun _ _ => trivial
    refine .cons (hS.exhausts h (fun _ _ => trivial) hj ?_) (ih hnext)
    intro hlt
    obtain ⟨fault, hf⟩ := hj.stopped hlt
    exact ⟨fault, by rw [← hf, (hS.step hnext fun _ _ => trivial).value]⟩

theorem Related.answer (hR : Simulation permitted R) (h : Related R m q) (r : Request)
    (hp : ∀ x ∈ (m.answer r).timeline, permitted x) :
    Outcome.Alike (Related R) (m.answer r) (q.answer r) := (lockstep hR).answer h r hp

theorem Related.serve (hR : Simulation permitted R) (h : Related R m q) (requests : List Request)
    (hp : ∀ x ∈ (m.serve requests).timeline, permitted x) :
    Outcome.Alike (Related R) (m.serve requests) (q.serve requests) :=
  (lockstep hR).serve h requests hp

end Lockstep

end Machine

end Mos6502
