import Mos6502.Cpu.Execute
import Mos6502.Machine.Basic
/-!
Running instructions. `Machine.step` runs one and `Machine.execute` as many as a cycle budget
starts: the budget is looked at between instructions only, so the last one may overshoot it.
-/

namespace Mos6502.Machine

variable {β : Type} [Bus β]

/-- Runs one instruction and answers its cost. -/
def step (m : Machine β) : Outcome (Machine β) (Except Fault Nat) :=
  match m.run CpuM.instruction with
  | ⟨.ok (), m, timeline⟩ => ⟨.ok timeline.length, m, timeline⟩
  | ⟨.error fault, m, timeline⟩ => ⟨.error fault, m, timeline⟩

/-- An instruction takes at least the cycle that reads its opcode. -/
theorem step_cost_pos {m m' : Machine β} {cost : Nat} {timeline : List Cycle}
    (h : m.step = ⟨.ok cost, m', timeline⟩) : 0 < cost := by
  have hne : (m.run CpuM.instruction).timeline ≠ [] := by
    simp [CpuM.instruction, run_bind]
  unfold step at h
  split at h
  · next hr =>
    cases h
    rw [hr] at hne
    exact List.length_pos_iff.mpr hne
  · cases h

/-- Runs instructions until the budget is used up or one fails. The cycles of the run so far are
`used` in number and `past`, newest first. -/
def runUntil (budget : Int) (used : Nat) (past : List Cycle) (m : Machine β) :
    Outcome (Machine β) (Except Fault Nat) :=
  if used < budget then
    match h : m.step with
    | ⟨.ok cost, m', timeline⟩ =>
      have := step_cost_pos h
      runUntil budget (used + cost) (timeline.reverse ++ past) m'
    | ⟨.error fault, m', timeline⟩ => ⟨.error fault, m', (timeline.reverse ++ past).reverse⟩
  else
    ⟨.ok used, m, past.reverse⟩
termination_by (budget - used).toNat

/-- The largest count of cycles that a signed 32-bit number holds. -/
def countLimit : Nat := 2147483647

/-- Runs instructions on a budget of cycles and answers how many were used, cut off at the largest
count. A budget that is not positive starts nothing. -/
def execute (m : Machine β) (budget : Int32) : Outcome (Machine β) (Except Fault Nat) :=
  match m.runUntil budget.toInt 0 [] with
  | ⟨value, m, timeline⟩ => ⟨value.map (min · countLimit), m, timeline⟩

end Mos6502.Machine
