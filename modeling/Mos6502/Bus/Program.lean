import Mos6502.Bus
/-!
Bus programs. A program says which bytes to move over a bus and when to idle; its course after a
read may depend on the byte read, and on nothing else of the bus. So one program runs on every bus,
and `BusM.runOn_bind` says that running a sequence is running its parts one after the other.
-/

namespace Mos6502

inductive BusM (α : Type) where
  | done (value : α)
  | read (address : UInt16) (next : UInt8 → BusM α)
  | write (address : UInt16) (value : UInt8) (next : BusM α)
  | idle (next : BusM α)

namespace BusM

variable {α γ β : Type}

def bind : BusM α → (α → BusM γ) → BusM γ
  | done a, f => f a
  | read address next, f => read address fun v => (next v).bind f
  | write address v next, f => write address v (next.bind f)
  | idle next, f => idle (next.bind f)

instance : Monad BusM where
  pure := done
  bind := bind

theorem bind_done (p : BusM α) : p.bind done = p := by
  induction p with
  | done a => rfl
  | read address next ih => exact congrArg (read address) (funext ih)
  | write address v next ih => exact congrArg (write address v) ih
  | idle next ih => exact congrArg idle ih

theorem bind_assoc {δ : Type} (p : BusM α) (f : α → BusM γ) (g : γ → BusM δ) :
    (p.bind f).bind g = p.bind fun a => (f a).bind g := by
  induction p with
  | done a => rfl
  | read address next ih => exact congrArg (read address) (funext ih)
  | write address v next ih => exact congrArg (write address v) ih
  | idle next ih => exact congrArg idle ih

instance : LawfulMonad BusM :=
  LawfulMonad.mk' BusM bind_done (fun _ _ => rfl) bind_assoc

/-- Runs a program on a bus. -/
def runOn [Bus β] : BusM α → β → Outcome β α
  | done a, bus => ⟨a, bus, []⟩
  | read address next, bus =>
    let v := Bus.read bus address
    ((next v).runOn bus).after [.read address v]
  | write address v next, bus =>
    (next.runOn (Bus.write bus address v)).after [.write address v]
  | idle next, bus => (next.runOn bus).after [.internal]

@[simp] theorem runOn_pure [Bus β] (a : α) (bus : β) :
    (pure a : BusM α).runOn bus = ⟨a, bus, []⟩ := rfl

theorem runOn_bind [Bus β] (p : BusM α) (f : α → BusM γ) (bus : β) :
    (p >>= f).runOn bus =
      ((f (p.runOn bus).value).runOn (p.runOn bus).state).after (p.runOn bus).timeline := by
  change (p.bind f).runOn bus = _
  induction p generalizing bus with
  | done a => rfl
  | read address next ih => simp [bind, runOn, ih, Outcome.after_after]
  | write address v next ih => simp [bind, runOn, ih, Outcome.after_after]
  | idle next ih => simp [bind, runOn, ih, Outcome.after_after]

/-- A cycle without bus traffic. -/
def tick : BusM Unit := idle (done ())

def readByte (address : UInt16) : BusM UInt8 := read address done

def writeByte (address : UInt16) (v : UInt8) : BusM Unit := write address v (done ())

end BusM

end Mos6502
