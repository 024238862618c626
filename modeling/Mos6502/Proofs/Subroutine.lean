import Mos6502.Proofs.Calls
import Mos6502.Proofs.Transfer
/-!
Calls and returns on every state. JSR takes its target from the bytes behind it before it writes the
stack, so the return address may fall on those bytes; RTS undoes it wherever the stack pointer
wraps. A call whose target is an RTS, even one that the return address has just put there, comes
back.
-/

namespace Mos6502.Machine

variable {m : Machine Memory}

/-- The next step completes. It keeps the address of the call's last byte at the stack pointer, the
low byte first, and continues at the target; nothing else changes. -/
structure CallStep (m : Machine Memory) : Prop where
  completes : m.step.value = .ok m.step.cost
  target : m.next.cpu.pc.toNat = m.bus.number (m.cpu.pc + 1) (m.cpu.pc + 2)
  registers : m.next.cpu = { m.cpu with pc := m.next.cpu.pc, sp := m.cpu.sp - 2 }
  low : (m.next.bus.read m.cpu.sp.toUInt16).toNat = (m.cpu.pc + 2).toNat % 256
  high : (m.next.bus.read (m.cpu.sp.toUInt16 + 1)).toNat = (m.cpu.pc + 2).toNat / 256
  memory : ∀ a, a ≠ m.cpu.sp.toUInt16 → a ≠ m.cpu.sp.toUInt16 + 1 →
    m.next.bus.read a = m.bus.read a

/-- The next step completes. It continues behind the address that lies above the stack pointer;
nothing else changes. -/
structure ReturnStep (m : Machine Memory) : Prop where
  completes : m.step.value = .ok m.step.cost
  target : let slot := (m.cpu.sp + 2).toUInt16
    m.next.cpu.pc.toNat = (m.bus.number slot (slot + 1) + 1) % 65536
  registers : m.next.cpu = { m.cpu with pc := m.next.cpu.pc, sp := m.cpu.sp + 2 }
  memory : m.next.bus = m.bus

/-- The next two steps complete and come out behind the first, with nothing changed but the cells
that held the return address. -/
structure ThereAndBack (m : Machine Memory) : Prop where
  completes : m.Completes 2
  cpu : (m.stepped 2).cpu = { m.cpu with pc := m.cpu.pc + 3 }
  memory : ∀ a, a ≠ m.cpu.sp.toUInt16 → a ≠ m.cpu.sp.toUInt16 + 1 →
    (m.stepped 2).bus.read a = m.bus.read a

def callEntry : Entry := ⟨.jsr, .absolute, 6⟩

def returnEntry : Entry := ⟨.rts, .implicit, 6⟩

theorem decoded_call (h : m.bus.read m.cpu.pc = 0x20) : m.decoded = some callEntry := by
  rw [decoded, opcode, Memory.bus_read, h]
  rfl

theorem decoded_return (h : m.bus.read m.cpu.pc = 0x60) : m.decoded = some returnEntry := by
  rw [decoded, opcode, Memory.bus_read, h]
  rfl

theorem call_step (h : m.bus.read m.cpu.pc = 0x20) : m.CallStep := by
  have he := decoded_call h
  have hnext := next_of_entry he
  obtain ⟨hlow, hhigh⟩ := Entry.effect_call (e := callEntry) rfl m.operand m
  constructor
  · exact step_ok_of_entry he
  · rw [hnext]
    exact m.bus.toNat_ofBytes_read (m.cpu.pc + 1) (m.cpu.pc + 2)
  · rw [hnext]
    rfl
  · rw [hnext, hlow, Word.toNat_low]
  · rw [hnext, hhigh, Word.toNat_high]
  · intro a hlow hhigh
    rw [hnext]
    exact callEntry.effect_read m.operand m (by simp [Entry.writes, callEntry, hlow, hhigh])

theorem return_step (h : m.bus.read m.cpu.pc = 0x60) : m.ReturnStep := by
  have he := decoded_return h
  have hnext := next_of_entry he
  constructor
  · exact step_ok_of_entry he
  · intro slot
    rw [← m.bus.toNat_ofBytes_read, hnext]
    exact UInt16.toNat_add _ 1
  · rw [hnext]
    rfl
  · rw [hnext]
    rfl

/-- What the call has written is read back, so the return undoes it. -/
theorem there_and_back (hcall : m.bus.read m.cpu.pc = 0x20)
    (hreturn : m.next.bus.read m.next.cpu.pc = 0x60) : m.ThereAndBack := by
  have hfirst := call_step hcall
  have hsecond := return_step hreturn
  have hi : m.nextInstruction = some .jsr := nextInstruction_of_entry (decoded_call hcall)
  have he : (m.stepped 1).decoded = some returnEntry := decoded_return hreturn
  -- call and return are a run that comes back to depth zero, with no other call inside
  have hdepth : m.depth 2 = 0 := by
    rw [depth_succ, (inCall_one hi).depth, callChange, nextInstruction_of_entry he]
    rfl
  have htwo : m.stepped (1 + 1) = m.next.next := m.stepped_succ 1
  obtain ⟨hpc, hsp⟩ := (inCall_one hi).resume he hdepth
  rw [htwo] at hpc hsp
  constructor
  · exact completes_next.mpr ⟨hfirst.completes,
      completes_next.mpr ⟨hsecond.completes, completes_zero _⟩⟩
  · have hregisters : m.next.next.cpu =
        { m.cpu with pc := m.next.next.cpu.pc, sp := m.next.next.cpu.sp } := by
      rw [hsecond.registers, hfirst.registers]
    rw [htwo, hregisters, hpc, hsp]
  · intro a hlow hhigh
    rw [htwo, hsecond.memory, hfirst.memory a hlow hhigh]

/-- What a step at a JSR or an RTS does, and the two of them together. -/
structure CallsAndReturns (m : Machine Memory) : Prop where
  call : m.bus.read m.cpu.pc = 0x20 → m.CallStep
  leave : m.bus.read m.cpu.pc = 0x60 → m.ReturnStep
  /-- The return is looked for in the memory that the call leaves. -/
  round_trip : m.bus.read m.cpu.pc = 0x20 → m.next.bus.read m.next.cpu.pc = 0x60 →
    m.ThereAndBack

theorem calls_and_returns (m : Machine Memory) : CallsAndReturns m where
  call := call_step
  leave := return_step
  round_trip := there_and_back

/-- A call to the cell that its return address goes to, whose low byte is an RTS. The high byte
spills over into the next page. -/
def callIntoStack : Machine Memory where
  cpu := { Cpu.initial with pc := 0x805E }
  bus := .ofFn fun address =>
    if address = 0x805E then 0x20 else if address = 0x805F then 0xFF else 0

theorem call_into_stack_returns :
    callIntoStack.bus.read callIntoStack.cpu.pc = 0x20 ∧
    callIntoStack.bus.read callIntoStack.next.cpu.pc = 0 ∧
    callIntoStack.next.bus.read callIntoStack.next.cpu.pc = 0x60 ∧
    (callIntoStack.stepped 2).cpu = { Cpu.initial with pc := 0x8061 } := by
  have hread (address : UInt16) : callIntoStack.bus.read address =
      if address = 0x805E then 0x20 else if address = 0x805F then 0xFF else 0 := by
    rw [callIntoStack, Memory.read_ofFn]
  have hcall : callIntoStack.bus.read callIntoStack.cpu.pc = 0x20 := by
    rw [hread]
    rfl
  have hfirst := (calls_and_returns callIntoStack).call hcall
  have htarget : callIntoStack.next.cpu.pc = 0x00FF := by
    have hpc := hfirst.target
    rw [Memory.number, hread, hread] at hpc
    exact UInt16.toNat_inj.mp hpc
  have hreturn : callIntoStack.next.bus.read callIntoStack.next.cpu.pc = 0x60 := by
    have hslot : callIntoStack.cpu.sp.toUInt16 = 0x00FF := rfl
    have hlow := hfirst.low
    rw [hslot] at hlow
    rw [htarget]
    exact UInt8.toNat_inj.mp hlow
  refine ⟨hcall, ?_, hreturn, ((calls_and_returns callIntoStack).round_trip hcall hreturn).cpu⟩
  rw [htarget, hread]
  rfl

end Mos6502.Machine
