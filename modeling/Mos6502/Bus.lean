/-!
The processor's surroundings: a bus of 65536 byte addresses, and the clock cycles that a processor
spends on it. Reading never changes a bus; what a write does is the bus's own affair.
-/

namespace Mos6502

/-- What stands behind the 65536 addresses. A word is always moved as two bytes, so byte access is
all that a bus decides. -/
class Bus (β : Type) where
  /-- Brings the bus into the state that a reset of the machine asks for. -/
  clear : β → β
  read : β → UInt16 → UInt8
  write : β → UInt16 → UInt8 → β

/-- One clock cycle: a byte crosses the bus, or the processor works by itself. A write is recorded
as asked for, whether or not the bus takes it. -/
inductive Cycle where
  | read (address : UInt16) (value : UInt8)
  | write (address : UInt16) (value : UInt8)
  | internal
  deriving DecidableEq, Repr

/-- What a run from some state comes to: its result, the state it leaves, and the cycles it took,
oldest first. -/
structure Outcome (σ α : Type) where
  value : α
  state : σ
  timeline : List Cycle

namespace Outcome

variable {σ α : Type}

/-- The run costs one unit of a budget per cycle. -/
def cost (o : Outcome σ α) : Nat := o.timeline.length

/-- What the run leaves of a counter that every cycle lowers by one. -/
def left (o : Outcome σ α) (counter : Int) : Int := counter - o.cost

/-- The outcome of a run that began with the given cycles. -/
def after (past : List Cycle) (o : Outcome σ α) : Outcome σ α :=
  { o with timeline := past ++ o.timeline }

@[simp] theorem value_after (past : List Cycle) (o : Outcome σ α) :
    (o.after past).value = o.value := rfl

@[simp] theorem state_after (past : List Cycle) (o : Outcome σ α) :
    (o.after past).state = o.state := rfl

@[simp] theorem timeline_after (past : List Cycle) (o : Outcome σ α) :
    (o.after past).timeline = past ++ o.timeline := rfl

theorem after_after (p q : List Cycle) (o : Outcome σ α) :
    (o.after q).after p = o.after (p ++ q) := by
  simp [after]

end Outcome

end Mos6502
