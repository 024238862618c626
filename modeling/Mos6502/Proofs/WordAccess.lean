import Mos6502.Proofs.Counter
import Mos6502.Proofs.Loading
/-!
Words in memory. A word that is written can be read and fetched again, its bytes lie where a load
would put them, and no other cell changes, also where the word goes across the end of memory.
Conversely a word that is read and written back leaves memory as it was.
-/

namespace Mos6502

namespace Memory

theorem wordAt_of_holds {memory : Memory} {a w : UInt16}
    (h : memory.Holds a [Word.low w, Word.high w]) : Bus.wordAt memory a = w := by
  obtain ⟨hlow, hhigh, -⟩ := h
  rw [Bus.wordAt, bus_read, bus_read, hlow, hhigh, Word.ofBytes_low_high]

theorem write_read (memory : Memory) (a : UInt16) : memory.write a (memory.read a) = memory := by
  apply ext
  intro b
  rw [read_write]
  split
  · next h => rw [h]
  · rfl

/-- The high byte is still the one that was read, as the low byte does not change its cell. -/
theorem writeWord_wordAt (memory : Memory) (a : UInt16) :
    Bus.writeWord memory a (Bus.wordAt memory a) = memory := by
  rw [Bus.writeWord, Bus.wordAt, Word.low_ofBytes, Word.high_ofBytes, bus_read, bus_read,
    bus_write, bus_write, write_read, write_read]

end Memory

namespace Machine

section Charges

variable {α β : Type} [Bus β]

theorem run_writeWord (m : Machine β) (a w : UInt16) :
    m.run (CpuM.writeWord a w) = ⟨(), { m with bus := Bus.writeWord m.bus a w },
      [.write a (Word.low w), .write (a + 1) (Word.high w)]⟩ := by
  simp [CpuM.writeWord, run_bind, Outcome.after, Bus.writeWord]

theorem run_fetchWord_at_pc (m : Machine β) :
    m.run CpuM.fetchWord = ⟨Bus.wordAt m.bus m.cpu.pc, m.skip 2,
      [Bus.peek m.bus m.cpu.pc, Bus.peek m.bus (m.cpu.pc + 1)]⟩ := by
  have hstart := m.run_fetchByte 0
  rw [show m.skip 0 = m by simp [skip]] at hstart
  simp [CpuM.fetchWord, run_bind, run_map, hstart, run_fetchByte, Outcome.after, Bus.wordAt,
    Bus.peek, byteAt, fetch]

/-- A program answers `value`, leaves `last` and costs `k` cycles, on any counter with room for
as many. -/
def Charges (m : Machine β) (p : CpuM α) (k : ℕ) (value : α) (last : Machine β) : Prop :=
  ∀ c : Int32, -2 ^ 31 ≤ c.toInt - k →
    ∃ d, m.countdown p (.start c) = some (value, d, last) ∧ d.value.toInt = c.toInt - k

theorem charges_of_run {m last : Machine β} {p : CpuM α} {value : α} {timeline : List Cycle}
    (h : m.run p = ⟨value, last, timeline⟩) : m.Charges p timeline.length value last := by
  intro c hroom
  apply countdown_iff.mpr
  rw [h]
  exact ⟨rfl, rfl, rfl, hroom⟩

end Charges

/-- The machine with a word's bytes loaded at an address, the low one first. -/
def withWord (m : Machine Memory) (a w : UInt16) : Machine Memory :=
  { m with bus := m.bus.load a [Word.low w, Word.high w] }

def withPc (m : Machine Memory) (pc : UInt16) : Machine Memory :=
  { m with cpu := { m.cpu with pc } }

/-- How the ways to write and to read a word agree. -/
structure WordsAgree (m : Machine Memory) (a w : UInt16) : Prop where
  write : m.Charges (CpuM.writeWord a w) 2 () (m.withWord a w)
  read : (m.withWord a w).Charges (CpuM.readWord a) 2 w (m.withWord a w)
  fetch : ((m.withWord a w).withPc a).Charges CpuM.fetchWord 2 w
    ((m.withWord a w).withPc (.ofNat ((a.toNat + 2) % Memory.size)))
  low : (m.withWord a w).Charges (CpuM.readByte a) 1 (Word.low w) (m.withWord a w)
  high : (m.withWord a w).Charges (CpuM.readByte (a + 1)) 1 (Word.high w) (m.withWord a w)
  frame : ∀ b, b ≠ a → b ≠ a + 1 → (m.withWord a w).bus.read b = m.bus.read b
  /-- A word is read and written back. -/
  back : m.Charges (CpuM.readWord a >>= CpuM.writeWord a) 4 () m

theorem words_agree (m : Machine Memory) (a w : UInt16) : WordsAgree m a w := by
  have hheld : (m.withWord a w).bus.Holds a [Word.low w, Word.high w] :=
    m.bus.holds_load a (show 2 ≤ Memory.size by decide)
  have hword := Memory.wordAt_of_holds hheld
  constructor
  · exact charges_of_run (m.run_writeWord a w)
  · have hread := (m.withWord a w).run_readWord a
    rw [hword] at hread
    exact charges_of_run hread
  · have hfetch := ((m.withWord a w).withPc a).run_fetchWord_at_pc
    rw [show Bus.wordAt ((m.withWord a w).withPc a).bus ((m.withWord a w).withPc a).cpu.pc = w
      from hword] at hfetch
    rw [ofNat_add_mod]
    exact charges_of_run hfetch
  · have hread := (m.withWord a w).run_readByte a
    rw [Memory.bus_read, hheld.1] at hread
    exact charges_of_run hread
  · have hread := (m.withWord a w).run_readByte (a + 1)
    rw [Memory.bus_read, hheld.2.1] at hread
    exact charges_of_run hread
  · intro b hlow hhigh
    apply Memory.read_load_of_not_mem
    simp [addresses, hlow, hhigh]
  · have hback : m.run (CpuM.readWord a >>= CpuM.writeWord a) = ⟨(), m,
        [Bus.peek m.bus a, Bus.peek m.bus (a + 1),
          .write a (Word.low (Bus.wordAt m.bus a)),
          .write (a + 1) (Word.high (Bus.wordAt m.bus a))]⟩ := by
      rw [run_bind, run_readWord, run_writeWord, Memory.writeWord_wordAt]
      rfl
    exact charges_of_run hback

/-- A word across the end of memory, on a counter that has no cycle to spare. -/
theorem word_across_end :
    -2 ^ 31 ≤ (-2147483646 : Int32).toInt - (2 : ℕ) ∧
    ∃ d e, Machine.countdown ⟨.initial, .zero⟩ (CpuM.writeWord 0xFFFF 0xBEEF)
        (.start (-2147483646)) = some ((), d, withWord ⟨.initial, .zero⟩ 0xFFFF 0xBEEF) ∧
      (withWord ⟨.initial, .zero⟩ 0xFFFF 0xBEEF).countdown (CpuM.readWord 0xFFFF)
        (.start (-2147483646)) = some (0xBEEF, e, withWord ⟨.initial, .zero⟩ 0xFFFF 0xBEEF) ∧
      d.value = .minValue ∧ e.value = .minValue := by
  have hroom : -2 ^ 31 ≤ (-2147483646 : Int32).toInt - (2 : ℕ) := by decide
  have hagree := words_agree ⟨.initial, .zero⟩ 0xFFFF 0xBEEF
  obtain ⟨d, hwrite, hd⟩ := hagree.write (-2147483646) hroom
  obtain ⟨e, hread, he⟩ := hagree.read (-2147483646) hroom
  refine ⟨hroom, d, e, hwrite, hread, ?_, ?_⟩
  · apply Int32.toInt_inj.mp
    rw [hd]
    decide
  · apply Int32.toInt_inj.mp
    rw [he]
    decide

end Machine

end Mos6502
