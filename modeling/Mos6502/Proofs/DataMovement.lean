import Mos6502.Proofs.Session
/-!
Bytes are moved and not made. Apart from calls, which write return addresses, an instruction only
copies bytes between cells and registers: whatever set the bytes of a machine lie in, they stay in
it. If all of that set are instructions and none is a call, the machine can therefore never fail,
wherever its program counter is led and whatever it overwrites.
-/

namespace Mos6502

/-- Only one opcode is a call. -/
theorem Entry.registry_jsr : ∀ p ∈ registry, p.2.instruction = .jsr → p.1 = 0x20 := by decide

namespace Machine

/-- The data registers and all cells hold bytes of a set. -/
structure Within (S : Set UInt8) (m : Machine Memory) : Prop where
  registers : ∀ r, m.cpu.register r ∈ S
  cells : ∀ address, m.bus.read address ∈ S

/-- All bytes of a set are instructions, and no calls. -/
def Callless (S : Set UInt8) : Prop := ∀ v ∈ S, v ≠ 0x20 ∧ ∃ e, Entry.ofOpcode? v = some e

namespace Within

variable {S : Set UInt8} {m : Machine Memory} {e : Entry}

theorem value (h : Within S m) (mode : Mode) : mode.value m.operand m ∈ S := by
  by_cases hi : mode = .immediate
  · subst hi
    exact h.cells (m.cpu.pc + 1)
  · rw [Mode.value_of_cell hi]
    exact h.cells (mode.cell m.operand m)

/-- A copy of the machine with other pointers and flags holds the same bytes. -/
theorem of_same {q : Machine Memory} (h : Within S m)
    (hregisters : ∀ r, q.cpu.register r = m.cpu.register r) (hbus : q.bus = m.bus) :
    Within S q := by
  constructor
  · intro r
    rw [hregisters]
    exact h.registers r
  · intro address
    rw [hbus]
    exact h.cells address

theorem load (h : Within S m) {r : Register} (hi : e.instruction = .load r) :
    Within S (e.effect m.operand m) := by
  rw [Entry.effect, hi]
  constructor
  · intro r'
    simp only [Cpu.register_load]
    by_cases hr : r = r'
    · rw [if_pos hr]
      exact h.value e.mode
    · rw [if_neg hr, skip_cpu, register_pc]
      exact h.registers r'
  · exact h.cells

theorem store (h : Within S m) {r : Register} (hi : e.instruction = .store r) :
    Within S (e.effect m.operand m) := by
  rw [Entry.effect, hi]
  constructor
  · intro r'
    simp only [skip_cpu, register_pc]
    exact h.registers r'
  · intro address
    simp only [Memory.bus_write, Memory.read_write]
    by_cases ha : e.mode.cell m.operand m = address
    · rw [if_pos ha]
      exact h.registers r
    · rw [if_neg ha]
      exact h.cells address

theorem effect (h : Within S m) (hcall : e.instruction ≠ .jsr) :
    Within S (e.effect m.operand m) := by
  cases hi : e.instruction with
  | load r => exact h.load hi
  | store r => exact h.store hi
  | jsr => exact absurd hi hcall
  | rts =>
    rw [Entry.effect, hi]
    exact h.of_same (fun r => by cases r <;> rfl) rfl
  | nop =>
    rw [Entry.effect, hi]
    exact h.of_same (fun r => register_pc _ _ r) rfl

theorem next (h : Within S m) (hcall : m.nextInstruction ≠ some .jsr) : Within S m.next := by
  cases hd : m.decoded with
  | none =>
    rw [Machine.next, step_of_unknown hd]
    exact h
  | some e =>
    rw [next_of_entry hd]
    apply h.effect
    intro hi
    rw [nextInstruction_of_entry hd, hi] at hcall
    exact hcall rfl

theorem stepped (h : Within S m) {n : ℕ}
    (hcalls : ∀ k < n, (m.stepped k).nextInstruction ≠ some .jsr) : Within S (m.stepped n) := by
  induction n with
  | zero => exact h
  | succ n ih =>
    rw [stepped_succ]
    exact (ih fun k hk => hcalls k (Nat.lt_succ_of_lt hk)).next (hcalls n n.lt_succ_self)

section Callless

variable (hS : Callless S)

include hS

theorem decoded (h : Within S m) : ∃ e, m.decoded = some e ∧ e.instruction ≠ .jsr := by
  obtain ⟨hne, e, he⟩ := hS m.opcode (h.cells m.cpu.pc)
  refine ⟨e, he, ?_⟩
  intro hi
  exact hne (Entry.registry_jsr _ (Entry.mem_registry he) hi)

theorem no_call (h : Within S m) : m.nextInstruction ≠ some .jsr := by
  obtain ⟨e, he, hi⟩ := h.decoded hS
  rw [nextInstruction_of_entry he]
  intro hcall
  exact hi (Option.some.inj hcall)

theorem stepped_callless (h : Within S m) (n : ℕ) : Within S (m.stepped n) := by
  induction n with
  | zero => exact h
  | succ n ih =>
    rw [stepped_succ]
    exact ih.next (ih.no_call hS)

theorem step_ok (h : Within S m) : ∃ cost, m.step.value = .ok cost := by
  obtain ⟨e, he, -⟩ := h.decoded hS
  exact ⟨_, step_ok_of_entry he⟩

theorem answer_ok (h : Within S m) (r : Request) : ∃ count, (m.answer r).value = .ok count := by
  cases r with
  | step => exact h.step_ok hS
  | execute budget =>
    cases hv : (m.execute budget).value with
    | ok count => exact ⟨count, hv⟩
    | error fault =>
      obtain ⟨n, -, -, hf⟩ := failed_of_error hv
      obtain ⟨cost, hok⟩ := (h.stepped_callless hS n).step_ok hS
      rw [hf] at hok
      cases hok

theorem serve_ok (h : Within S m) (requests : List Request) :
    ∀ answer ∈ (m.serve requests).value, ∃ count, answer = .ok count := by
  induction requests generalizing m with
  | nil =>
    intro answer hanswer
    cases hanswer
  | cons r requests ih =>
    intro answer hanswer
    rcases List.mem_cons.mp hanswer with rfl | hrest
    · exact h.answer_ok hS r
    · obtain ⟨n, -, hn, -⟩ := m.exhausts_answer r
      rw [hn] at hrest
      exact ih (h.stepped_callless hS n) answer hrest

end Callless

end Within

/-- How the bytes of a machine bear on its runs. -/
structure OnlyMoves (S : Set UInt8) (m : Machine Memory) : Prop where
  moved : ∀ n, (∀ k < n, (m.stepped k).nextInstruction ≠ some .jsr) → Within S (m.stepped n)
  succeeds : Callless S → ∀ requests, ∀ answer ∈ (m.serve requests).value,
    ∃ count, answer = .ok count

theorem bytes_only_move {S : Set UInt8} {m : Machine Memory} (h : Within S m) :
    OnlyMoves S m where
  moved _ hcalls := h.stepped hcalls
  succeeds hS requests := h.serve_ok hS requests

/-- Nothing but stores into one cell, which put a load in that place. -/
def overwriting : Machine Memory where
  cpu := { Cpu.initial with a := 0xA5, x := 0x85, y := 0x85 }
  bus := .ofFn fun _ => 0x85

theorem overwriting_only_moves :
    Within {0x85, 0xA5} overwriting ∧ Callless {0x85, 0xA5} ∧
    OnlyMoves {0x85, 0xA5} overwriting ∧
    ∃ count, (overwriting.execute 1000).value = .ok count := by
  have h : Within {0x85, 0xA5} overwriting := by
    constructor
    · intro r
      cases r
      · exact Or.inr rfl
      · exact Or.inl rfl
      · exact Or.inl rfl
    · intro address
      rw [overwriting, Memory.read_ofFn]
      exact Or.inl rfl
  have hS : Callless {0x85, 0xA5} := by
    rintro v (rfl | rfl)
    · exact ⟨by decide, _, rfl⟩
    · exact ⟨by decide, _, rfl⟩
  have hmoves := bytes_only_move h
  exact ⟨h, hS, hmoves, hmoves.succeeds hS [.execute 1000] _ List.mem_cons_self⟩

end Machine

end Mos6502
