import Mos6502.Proofs.Session
/-!
What a session can change. Only stores and calls write: a store into the cell it designates, a call
into the two cells at the stack pointer. Since calls and returns move the stack pointer by two, its
parity never changes, and all calls of a session write into one window of 256 cells.
-/

namespace Mos6502

variable {β : Type} [Bus β]

/-- Finding an address writes nothing. -/
theorem Mode.write_not_mem_finding (charge : IndexCharge) (m : Machine β) (mode : Mode)
    (a : UInt16) (v : UInt8) : .write a v ∉ mode.finding charge m := by
  have hindex (base effective : UInt16) : .write a v ∉ indexCycle charge base effective := by
    unfold indexCycle
    split <;> simp
  cases mode <;> simp [finding, pointerReads, Bus.peek, Machine.fetch, hindex]

theorem Mode.write_not_mem_reading (m : Machine β) (mode : Mode) (a : UInt16) (v : UInt8) :
    .write a v ∉ mode.reading m := by
  by_cases hi : mode = .immediate
  · subst hi
    simp [reading, Machine.fetch]
  · simp [reading_of_cell hi, write_not_mem_finding, Bus.peek]

namespace Entry

variable {e : Entry} {o : Operand} {m : Machine β} {a : UInt16} {v : UInt8}

theorem mem_writes (h : a ∈ e.writes o m) :
    e.instruction.isStore ∧ e.mode.cell o m = a ∨
      e.instruction = .jsr ∧ (a = m.cpu.sp.toUInt16 ∨ a = m.cpu.sp.toUInt16 + 1) := by
  unfold writes at h
  cases hi : e.instruction with
  | store r =>
    simp only [hi, List.mem_singleton] at h
    exact Or.inl ⟨rfl, h.symm⟩
  | jsr =>
    simp only [hi, List.mem_cons, List.not_mem_nil, or_false] at h
    exact Or.inr ⟨rfl, h⟩
  | load r => simp [hi] at h
  | rts => simp [hi] at h
  | nop => simp [hi] at h

/-- The write cycles of an instruction go to the cells that it changes. -/
theorem mem_writes_of_cycle (h : .write a v ∈ e.cycles m) : a ∈ e.writes m.operand m := by
  unfold cycles work at h
  unfold writes
  cases hi : e.instruction with
  | load r => simp [hi, Mode.write_not_mem_reading, Machine.fetch] at h
  | store r =>
    simp only [hi, Machine.fetch, List.mem_cons, List.mem_append, Mode.write_not_mem_finding,
      false_or, List.not_mem_nil, or_false, reduceCtorEq, Cycle.write.injEq] at h
    exact List.mem_singleton.mpr h.1
  | jsr =>
    simp only [hi, Machine.fetch, List.mem_cons, List.not_mem_nil, or_false, reduceCtorEq,
      false_or, Cycle.write.injEq] at h
    rcases h with h | h
    · simp [h.1]
    · simp [h.1]
  | rts => simp [hi, Machine.fetch, Bus.peek] at h
  | nop => simp [hi, Machine.fetch] at h

end Entry

/-- The cells that calls can write when the stack pointer has the parity of `sp`. -/
def StackWindow (sp : UInt8) (a : UInt16) : Prop :=
  if sp.toNat % 2 = 0 then a ≤ 0x00FF else 0x0001 ≤ a ∧ a ≤ 0x0100

instance (sp : UInt8) (a : UInt16) : Decidable (StackWindow sp a) := by
  unfold StackWindow; infer_instance

theorem stackWindow_of_slot {sp sp' : UInt8} {a : UInt16} (h : sp'.toNat % 2 = sp.toNat % 2)
    (ha : a = sp'.toUInt16 ∨ a = sp'.toUInt16 + 1) : StackWindow sp a := by
  have hsp := sp'.toNat_lt
  have hn : a.toNat = sp'.toNat ∨ a.toNat = sp'.toNat + 1 := by
    rcases ha with rfl | rfl
    · exact Or.inl (UInt8.toNat_toUInt16 sp')
    · right
      simp only [UInt16.toNat_add, UInt8.toNat_toUInt16, UInt16.reduceToNat]
      omega
  unfold StackWindow
  simp only [UInt16.le_iff_toNat_le, UInt16.reduceToNat]
  split
  · omega
  · omega

theorem stackWindow_le {sp : UInt8} {a : UInt16} (h : StackWindow sp a) : a ≤ 0x0100 := by
  unfold StackWindow at h
  split at h
  · exact UInt16.le_trans h (by decide)
  · exact h.2

namespace Machine

/-- How many of the first `n` instructions are the given one. -/
def performed (m : Machine β) (i : Instruction) (n : ℕ) : ℕ :=
  (List.range n).countP fun k => (m.stepped k).nextInstruction = some i

/-- The instruction run after `k` steps is a store into the cell. -/
def StoresTo (m : Machine β) (k : ℕ) (a : UInt16) : Prop :=
  ∃ e, (m.stepped k).decoded = some e ∧ e.instruction.isStore ∧
    e.mode.cell (m.stepped k).operand (m.stepped k) = a

theorem performed_succ (m : Machine β) (i : Instruction) (n : ℕ) :
    m.performed i (n + 1) =
      m.performed i n + if (m.stepped n).nextInstruction = some i then 1 else 0 := by
  simp [performed, List.range_succ, List.countP_append, List.countP_cons]

theorem stepped_sp {m : Machine β} {n : ℕ} (h : m.Completes n) :
    ((m.stepped n).cpu.sp.toNat : ℤ) =
      (m.cpu.sp.toNat + 2 * m.performed .rts n - 2 * m.performed .jsr n) % 256 := by
  induction n with
  | zero =>
    have := m.cpu.sp.toNat_lt
    simp only [stepped_zero, performed, List.range_zero, List.countP_nil]
    omega
  | succ n ih =>
    obtain ⟨e, he⟩ := h.decoded n.lt_succ_self
    have hn := ih (h.of_le n.le_succ)
    have hsp := (m.stepped n).cpu.sp.toNat_lt
    rw [stepped_of_entry he, e.effect_sp, performed_succ, performed_succ,
      nextInstruction_of_entry he]
    cases e.instruction with
    | load r => simpa using hn
    | store r => simpa using hn
    | nop => simpa using hn
    | jsr =>
      simp only [UInt8.toNat_sub, reduceCtorEq, Option.some.injEq, if_true, if_false]
      rw [show (2 : UInt8).toNat = 2 from rfl]
      push_cast
      omega
    | rts =>
      simp only [UInt8.toNat_add, reduceCtorEq, Option.some.injEq, if_true, if_false]
      rw [show (2 : UInt8).toNat = 2 from rfl]
      push_cast
      omega

theorem stepped_sp_parity {m : Machine β} {n : ℕ} (h : m.Completes n) :
    (m.stepped n).cpu.sp.toNat % 2 = m.cpu.sp.toNat % 2 := by
  have := stepped_sp h
  omega

/-- Each instruction of a run writes into the cell of a store or into the window of the calls. -/
theorem stores_or_window {m : Machine β} {n k : ℕ} (h : m.Completes n) (hk : k < n) {e : Entry}
    (he : (m.stepped k).decoded = some e) {a : UInt16}
    (ha : a ∈ e.writes (m.stepped k).operand (m.stepped k)) :
    m.StoresTo k a ∨ StackWindow m.cpu.sp a := by
  rcases Entry.mem_writes ha with ⟨hs, hc⟩ | ⟨-, hslot⟩
  · exact Or.inl ⟨e, he, hs, hc⟩
  · exact Or.inr (stackWindow_of_slot (stepped_sp_parity (h.of_le (Nat.le_of_lt hk))) hslot)

theorem write_mem_history {m : Machine β} {n : ℕ} (h : m.Completes n) {a : UInt16} {v : UInt8}
    (hw : .write a v ∈ m.history n) : (∃ k < n, m.StoresTo k a) ∨ StackWindow m.cpu.sp a := by
  obtain ⟨k, hk, hw⟩ := List.mem_flatMap.mp hw
  have hkn := List.mem_range.mp hk
  obtain ⟨e, he⟩ := h.decoded hkn
  rw [step_of_entry he] at hw
  rcases stores_or_window h hkn he (Entry.mem_writes_of_cycle hw) with hs | hwindow
  · exact Or.inl ⟨k, hkn, hs⟩
  · exact Or.inr hwindow

theorem stepped_read {m : Machine Memory} {n : ℕ} (h : m.Completes n) {a : UInt16}
    (hstore : ∀ k < n, ¬ m.StoresTo k a) (hwindow : ¬ StackWindow m.cpu.sp a) :
    (m.stepped n).bus.read a = m.bus.read a := by
  induction n with
  | zero => rfl
  | succ n ih =>
    obtain ⟨e, he⟩ := h.decoded n.lt_succ_self
    have hn := ih (h.of_le n.le_succ) fun k hk => hstore k (Nat.lt_succ_of_lt hk)
    rw [stepped_of_entry he, ← hn]
    apply e.effect_read
    intro ha
    rcases stores_or_window h n.lt_succ_self he ha with hs | hw
    · exact hstore n n.lt_succ_self hs
    · exact hwindow hw

/-- A call writes at the stack pointer only. -/
theorem slot_of_call {m : Machine β} (h : m.nextInstruction = some .jsr) {a : UInt16} {v : UInt8}
    (hw : .write a v ∈ m.step.timeline) :
    a = m.cpu.sp.toUInt16 ∨ a = m.cpu.sp.toUInt16 + 1 := by
  obtain ⟨e, he, hi⟩ := Option.map_eq_some_iff.mp h
  rw [step_of_entry he] at hw
  rcases Entry.mem_writes (Entry.mem_writes_of_cycle hw) with ⟨hs, -⟩ | ⟨-, hslot⟩
  · rw [hi] at hs
    cases hs
  · exact hslot

/-- A call writes the high byte of its return address above the stack pointer. -/
theorem write_mem_of_call {m : Machine β} (h : m.nextInstruction = some .jsr) :
    .write (m.cpu.sp.toUInt16 + 1) (Word.high (m.cpu.pc + 2)) ∈ m.step.timeline := by
  obtain ⟨e, he, hi⟩ := Option.map_eq_some_iff.mp h
  rw [step_of_entry he]
  simp [Entry.cycles, Entry.work, hi]

/-- The first instruction after a reset is a call. -/
def resetCall : Machine Memory where
  cpu := .initial
  bus := .ofFn fun address => if address = resetVector then 0x20 else 0

theorem resetCall_writes :
    resetCall.nextInstruction = some .jsr ∧ .write 0x0100 0xFF ∈ resetCall.step.timeline := by
  have hread : Bus.read resetCall.bus resetCall.cpu.pc = 0x20 := by
    rw [resetCall, Memory.bus_read, Memory.read_ofFn]
    rfl
  have hcall : resetCall.nextInstruction = some .jsr := by
    rw [nextInstruction, decoded, opcode, hread]
    rfl
  have haddress : resetCall.cpu.sp.toUInt16 + 1 = 0x0100 := by decide
  have hvalue : Word.high (resetCall.cpu.pc + 2) = 0xFF := by decide
  have hwrite := write_mem_of_call hcall
  rw [haddress, hvalue] at hwrite
  exact ⟨hcall, hwrite⟩

/-- What a session in which `n` instructions complete does to the stack pointer and to memory. -/
structure WriteFootprint (m : Machine Memory) (requests : List Request) (n : ℕ) : Prop where
  performs : m.Performs requests n
  sp : ((m.serve requests).state.cpu.sp.toNat : ℤ) =
    (m.cpu.sp.toNat + 2 * m.performed .rts n - 2 * m.performed .jsr n) % 256
  parity : (m.serve requests).state.cpu.sp.toNat % 2 = m.cpu.sp.toNat % 2
  changed : ∀ a, (m.serve requests).state.bus.read a ≠ m.bus.read a →
    (∃ k < n, m.StoresTo k a) ∨ StackWindow m.cpu.sp a
  storeless : (∀ k < n, ∀ a, ¬ m.StoresTo k a) →
    ∀ a, ¬ StackWindow m.cpu.sp a → (m.serve requests).state.bus.read a = m.bus.read a
  /-- From the stack pointer of a reset no call writes the first cell. -/
  first : m.cpu.sp = stackPointerReset → ∀ k < n, (m.stepped k).nextInstruction = some .jsr →
    ∀ v, .write 0x0000 v ∉ (m.stepped k).step.timeline
  /-- It may write the cell behind the first page. -/
  spill : ∃ c : Machine Memory, c.cpu = .initial ∧ c.nextInstruction = some .jsr ∧
    .write 0x0100 0xFF ∈ c.step.timeline

theorem write_footprint (m : Machine Memory) (requests : List Request) :
    ∃ n, m.WriteFootprint requests n := by
  obtain ⟨n, hn⟩ := m.exists_performs requests
  have hc := hn.completes
  refine ⟨n, hn, ?_, ?_, ?_, ?_, ?_, ?_⟩
  · rw [hn.state]
    exact stepped_sp hc
  · rw [hn.state]
    exact stepped_sp_parity hc
  · intro a ha
    rw [hn.state] at ha
    by_cases hw : StackWindow m.cpu.sp a
    · exact Or.inr hw
    · by_contra hnone
      exact ha (stepped_read hc (fun k hk hs => hnone (Or.inl ⟨k, hk, hs⟩)) hw)
  · intro hnone a ha
    rw [hn.state]
    exact stepped_read hc (fun k hk => hnone k hk a) ha
  · intro hsp k hk hcall v hw
    have hparity := stepped_sp_parity (hc.of_le (Nat.le_of_lt hk))
    have hwindow := stackWindow_of_slot hparity (slot_of_call hcall hw)
    rw [hsp] at hwindow
    revert hwindow
    decide
  · exact ⟨resetCall, rfl, resetCall_writes⟩

end Machine

end Mos6502
