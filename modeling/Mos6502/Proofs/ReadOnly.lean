import Mos6502.Memory.Rom
import Mos6502.Proofs.WriteFootprint
/-!
Machines with read-only memory. Nothing that is done to such a machine changes the read-only half,
and a program that does not store into that half runs as on plain memory: a call never writes there.
-/

namespace Mos6502

section Kept

variable {α β : Type} [Bus β] {P : β → Prop}

/-- What no single write breaks, no program breaks. -/
theorem BusM.runOn_kept (hP : ∀ b a v, P b → P (Bus.write b a v)) (p : BusM α) {bus : β}
    (h : P bus) : P (p.runOn bus).state := by
  induction p generalizing bus with
  | done a => exact h
  | read address next ih => exact ih _ h
  | write address v next ih => exact ih (hP bus address v h)
  | idle next ih => exact ih h

theorem Machine.next_kept (hP : ∀ b a v, P b → P (Bus.write b a v)) {m : Machine β} (h : P m.bus) :
    P m.next.bus := by
  rw [next, step_eq_run]
  exact BusM.runOn_kept hP (CpuM.instruction.run m.cpu) h

theorem Machine.stepped_kept (hP : ∀ b a v, P b → P (Bus.write b a v)) {m : Machine β}
    (h : P m.bus) (n : ℕ) : P (m.stepped n).bus := by
  induction n with
  | zero => exact h
  | succ n ih =>
    rw [stepped_succ]
    exact next_kept hP ih

end Kept

namespace RomMemory

/-- Every cell of the read-only half is as it was. -/
def KeepsRom (initial bus : RomMemory) : Prop :=
  ∀ a, romStart ≤ a → Bus.read bus a = Bus.read initial a

theorem KeepsRom.write {initial bus : RomMemory} (h : KeepsRom initial bus) (a : UInt16)
    (v : UInt8) : KeepsRom initial (Bus.write bus a v) := by
  intro b hb
  rw [RomMemory.read_write]
  by_cases hw : a < romStart ∧ a = b
  · obtain ⟨hlt, rfl⟩ := hw
    exact absurd hlt (UInt16.not_lt.mpr hb)
  · rw [if_neg hw]
    exact h b hb

theorem KeepsRom.clear {initial bus : RomMemory} (h : KeepsRom initial bus) :
    KeepsRom initial (Bus.clear bus) := by
  intro a ha
  rw [RomMemory.read_clear, if_neg (UInt16.not_lt.mpr ha)]
  exact h a ha

end RomMemory

open RomMemory (romStart KeepsRom)

/-- What a host may ask of a machine, a reset included. -/
inductive Operation where
  | reset
  | request (r : Request)

namespace Machine

variable {β : Type} [Bus β]

def operate (m : Machine β) : Operation → Machine β
  | .reset => m.reset
  | .request r => (m.answer r).state

def operateAll (m : Machine β) (operations : List Operation) : Machine β :=
  operations.foldl operate m

theorem operate_keepsRom {initial : RomMemory} {m : Machine RomMemory}
    (h : KeepsRom initial m.bus) (operation : Operation) :
    KeepsRom initial (m.operate operation).bus := by
  cases operation with
  | reset => exact h.clear
  | request r =>
    obtain ⟨n, hn, -⟩ := m.exhausts_answer r
    rw [operate, hn.answer.1]
    exact stepped_kept (fun _ a v hb => hb.write a v) h n

theorem operateAll_keepsRom {initial : RomMemory} {m : Machine RomMemory}
    (h : KeepsRom initial m.bus) (operations : List Operation) :
    KeepsRom initial (m.operateAll operations).bus := by
  induction operations generalizing m with
  | nil => exact h
  | cons operation operations ih => exact ih (operate_keepsRom h operation)

/-- The same machine with all of its memory writable. -/
def onPlain (m : Machine RomMemory) : Machine Memory := ⟨m.cpu, m.bus.memory⟩

end Machine

/-- A cycle that writes nothing into the read-only half. -/
def Cycle.SparesRom (c : Cycle) : Prop := ∀ a v, c = .write a v → a < romStart

/-- Plain memory with the cells of a memory that is half read-only. -/
def SameImage (memory : Memory) (rom : RomMemory) : Prop := rom.memory = memory

theorem rom_simulation : Simulation Cycle.SparesRom SameImage where
  read := by
    rintro memory rom a rfl -
    rfl
  write := by
    rintro memory rom a v rfl hp
    have ha : a < romStart := hp a v rfl
    simp only [SameImage, Bus.write, ha, if_true]

namespace Machine

/-- None of the first `n` instructions is a store into the read-only half. -/
def StoresSpareRom (m : Machine Memory) (n : ℕ) : Prop :=
  ∀ k < n, ∀ a, m.StoresTo k a → a < romStart

/-- Calls write below the read-only half, so what holds of the stores holds of all writes. -/
theorem history_spares {m : Machine Memory} {n : ℕ} (hc : m.Completes n)
    (hstores : m.StoresSpareRom n) {a : UInt16} {v : UInt8} (hw : .write a v ∈ m.history n) :
    a < romStart := by
  rcases write_mem_history hc hw with ⟨k, hk, hs⟩ | hwindow
  · exact hstores k hk a hs
  · exact UInt16.lt_of_le_of_lt (stackWindow_le hwindow) (by decide)

structure RomRun (m : Machine RomMemory) : Prop where
  /-- No step, run or reset changes the read-only half. -/
  preserved : ∀ operations a, romStart ≤ a →
    Bus.read (m.operateAll operations).bus a = Bus.read m.bus a
  /-- A session that spares the read-only half on plain memory is the same session here. -/
  faithful : ∀ requests, ∃ n, m.onPlain.Performs requests n ∧ (m.onPlain.StoresSpareRom n →
    (m.serve requests).value = (m.onPlain.serve requests).value ∧
    (m.serve requests).state.onPlain = (m.onPlain.serve requests).state)
  call : m.nextInstruction = some .jsr →
    ∀ a v, .write a v ∈ m.step.timeline → a ≤ 0x0100

theorem rom_run (m : Machine RomMemory) : m.RomRun := by
  constructor
  · intro operations a ha
    have hsame : KeepsRom m.bus m.bus := fun _ _ => rfl
    exact operateAll_keepsRom hsame operations a ha
  · intro requests
    obtain ⟨n, hn⟩ := m.onPlain.exists_performs requests
    refine ⟨n, hn, fun hstores => ?_⟩
    -- the stores are those of the run on plain memory, so that run is the one to be followed
    have hrelated : Related SameImage m.onPlain m := ⟨rfl, rfl⟩
    obtain ⟨hv, -, hcpu, hbus⟩ := hrelated.serve rom_simulation requests <| by
      rintro x hx a v rfl
      exact history_spares hn.completes hstores (hn.write_mem hx)
    have himage : (m.serve requests).state.bus.memory = (m.onPlain.serve requests).state.bus :=
      hbus
    constructor
    · exact hv.symm
    · rw [onPlain, ← hcpu, himage]
  · intro hcall a v hw
    exact stackWindow_le (stackWindow_of_slot rfl (slot_of_call hcall hw))

end Machine

end Mos6502
