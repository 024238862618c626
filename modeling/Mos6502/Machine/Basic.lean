import Mos6502.Cpu.Fetch
/-!
A processor on a bus, and what a processor program does to it. The laws of `Machine.run` take a
program apart piece by piece, so nothing else has to look inside one.
-/

namespace Mos6502

structure Machine (β : Type) where
  cpu : Cpu
  bus : β
  deriving DecidableEq, Repr

namespace Machine

variable {α γ β : Type} [Bus β]

def reset (m : Machine β) : Machine β := ⟨.initial, Bus.clear m.bus⟩

def run (p : CpuM α) : Machine β → Outcome (Machine β) α
  | ⟨cpu, bus⟩ =>
    match (p.run cpu).runOn bus with
    | ⟨(value, cpu), bus, timeline⟩ => ⟨value, ⟨cpu, bus⟩, timeline⟩

@[simp] theorem run_pure (m : Machine β) (a : α) : m.run (pure a) = ⟨a, m, []⟩ := rfl

theorem run_bind (m : Machine β) (p : CpuM α) (f : α → CpuM γ) :
    m.run (p >>= f) =
      ((m.run p).state.run (f (m.run p).value)).after (m.run p).timeline := by
  obtain ⟨cpu, bus⟩ := m
  simp only [run, StateT.run_bind, BusM.runOn_bind, Outcome.after]

theorem run_map (m : Machine β) (f : α → γ) (p : CpuM α) :
    m.run (f <$> p) = ⟨f (m.run p).value, (m.run p).state, (m.run p).timeline⟩ := by
  rw [map_eq_pure_bind, run_bind]
  simp [Outcome.after]

@[simp] theorem run_get (m : Machine β) : m.run get = ⟨m.cpu, m, []⟩ := rfl

@[simp] theorem run_set (m : Machine β) (cpu : Cpu) :
    m.run (set cpu) = ⟨(), { m with cpu }, []⟩ := rfl

@[simp] theorem run_modify (m : Machine β) (f : Cpu → Cpu) :
    m.run (modify f) = ⟨(), { m with cpu := f m.cpu }, []⟩ := rfl

@[simp] theorem run_tick (m : Machine β) : m.run CpuM.tick = ⟨(), m, [.internal]⟩ := rfl

@[simp] theorem run_readByte (m : Machine β) (address : UInt16) :
    m.run (CpuM.readByte address) =
      ⟨Bus.read m.bus address, m, [.read address (Bus.read m.bus address)]⟩ := rfl

@[simp] theorem run_writeByte (m : Machine β) (address : UInt16) (v : UInt8) :
    m.run (CpuM.writeByte address v) =
      ⟨(), { m with bus := Bus.write m.bus address v }, [.write address v]⟩ := rfl

end Machine

end Mos6502
