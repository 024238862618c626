import Mos6502.Proofs.Simulation
/-!
Subroutine calls. A run that starts with JSR and comes back to depth zero resumes behind that JSR
with the old stack pointer, however its inner calls nest and however the stack pointer wraps, as
long as no more than 128 calls are open and no store hits the return address of an open call.
-/

namespace Mos6502

namespace Entry

theorem effect_call {e : Entry} (he : e.instruction = .jsr) (o : Operand) (m : Machine Memory) :
    (e.effect o m).bus.read m.cpu.sp.toUInt16 = Word.low (m.cpu.pc + 2) ∧
      (e.effect o m).bus.read (m.cpu.sp.toUInt16 + 1) = Word.high (m.cpu.pc + 2) := by
  have hne : m.cpu.sp.toUInt16 + 1 ≠ m.cpu.sp.toUInt16 := by
    have := m.cpu.sp.toNat_lt
    simp only [Ne, ← UInt16.toNat_inj, UInt16.toNat_add, UInt8.toNat_toUInt16, UInt16.reduceToNat]
    omega
  unfold effect
  simp only [he, Bus.writeWord, Memory.bus_write, Memory.read_write, if_neg hne, if_true, and_self]

end Entry

namespace Machine

variable {β : Type} [Bus β]

def callChange (m : Machine β) : ℤ :=
  match m.nextInstruction with
  | some .jsr => 1
  | some .rts => -1
  | _ => 0

/-- The calls made in the first `n` steps less the returns. -/
def depth (m : Machine β) (n : ℕ) : ℤ := ∑ k ∈ Finset.range n, (m.stepped k).callChange

/-- The stack pointers at the calls that have not returned after `n` steps, the innermost first. -/
def openCalls (m : Machine β) : ℕ → List UInt16
  | 0 => []
  | n + 1 =>
    match (m.stepped n).nextInstruction with
    | some .jsr => (m.stepped n).cpu.sp.toUInt16 :: m.openCalls n
    | some .rts => (m.openCalls n).tail
    | _ => m.openCalls n

/-- The two cells of each open call. -/
def openCells (m : Machine β) (n : ℕ) : List UInt16 := (m.openCalls n).flatMap fun a => [a, a + 1]

/-- The instruction run after `k` steps does not store into a cell of an open call. -/
def StoreSpares (m : Machine β) (k : ℕ) (e : Entry) : Prop :=
  e.instruction.isStore → e.mode.cell (m.stepped k).operand (m.stepped k) ∉ m.openCells k

def SparesCalls (m : Machine β) (n : ℕ) : Prop :=
  ∀ k < n, ∀ e ∈ (m.stepped k).decoded, m.StoreSpares k e

instance (m : Machine β) (n : ℕ) : Decidable (m.SparesCalls n) := by
  unfold SparesCalls StoreSpares
  infer_instance

theorem depth_succ (m : Machine β) (n : ℕ) :
    m.depth (n + 1) = m.depth n + (m.stepped n).callChange := Finset.sum_range_succ _ n

theorem depth_onCells (m : Machine Memory) (n : ℕ) : m.onCells.depth n = m.depth n := by
  simp only [depth, ← stepped_onCells]
  rfl

theorem openCalls_onCells (m : Machine Memory) (n : ℕ) :
    m.onCells.openCalls n = m.openCalls n := by
  induction n with
  | zero => rfl
  | succ n ih =>
    simp only [openCalls, ih, ← stepped_onCells]
    rfl

theorem sparesCalls_of_onCells {m : Machine Memory} {n : ℕ} (h : m.onCells.SparesCalls n) :
    m.SparesCalls n := by
  intro k hk e he hs
  have hc := h k hk e (by rw [← stepped_onCells]; exact he) hs
  rw [openCells, openCalls_onCells, ← stepped_onCells] at hc
  exact hc

theorem slot_below (sp : UInt8) (d : ℕ) :
    sp - .ofNat (2 * d) - 2 = sp - .ofNat (2 * (d + 1)) := by
  have hsp := sp.toNat_lt
  rw [← UInt8.toNat_inj, UInt8.toNat_sub, UInt8.toNat_sub, UInt8.toNat_sub, UInt8.toNat_ofNat',
    UInt8.toNat_ofNat', show (2 : UInt8).toNat = 2 from rfl]
  omega

/-- Two slots of one stack do not overlap, wrapped or not, while the stack pointer has not come
round to the first. -/
theorem slots_disjoint (sp : UInt8) {d : ℕ} (hd : 1 ≤ d) (hd' : d ≤ 127) :
    let a := sp.toUInt16
    let b := (sp - .ofNat (2 * d)).toUInt16
    a ≠ b ∧ a ≠ b + 1 ∧ a + 1 ≠ b ∧ a + 1 ≠ b + 1 := by
  intro a b
  have hsp := sp.toNat_lt
  have ha : a.toNat = sp.toNat := UInt8.toNat_toUInt16 sp
  have hb : b.toNat = (256 - 2 * d % 256 + sp.toNat) % 256 := by
    rw [UInt8.toNat_toUInt16, UInt8.toNat_sub, UInt8.toNat_ofNat']
  simp only [Ne, ← UInt16.toNat_inj, UInt16.toNat_add, UInt16.reduceToNat, ha, hb]
  omega

def Keeps (m : Machine Memory) (k : ℕ) : Prop :=
  (m.stepped k).bus.read m.cpu.sp.toUInt16 = Word.low (m.cpu.pc + 2) ∧
    (m.stepped k).bus.read (m.cpu.sp.toUInt16 + 1) = Word.high (m.cpu.pc + 2)

/-- The machine `k` steps after a call from `m`, with that call open below the `inner` ones. -/
structure InCall (m : Machine Memory) (k : ℕ) (inner : List UInt16) : Prop where
  calls : m.openCalls k = inner ++ [m.cpu.sp.toUInt16]
  depth : m.depth k = inner.length + 1
  sp : (m.stepped k).cpu.sp = m.cpu.sp - .ofNat (2 * (inner.length + 1))
  keeps : m.Keeps k

theorem inCall_one {m : Machine Memory} (hcall : m.nextInstruction = some .jsr) :
    InCall m 1 [] := by
  obtain ⟨e, he, hi⟩ := Option.map_eq_some_iff.mp hcall
  have hs : m.stepped 1 = e.effect m.operand m := stepped_of_entry (k := 0) he
  refine ⟨?_, ?_, ?_, ?_⟩
  · simp [openCalls, hcall]
  · simp [depth, callChange, hcall]
  · rw [hs, e.effect_sp, hi]
    rfl
  · rw [Keeps, hs]
    exact e.effect_call hi m.operand m

namespace InCall

variable {m : Machine Memory} {k : ℕ} {inner : List UInt16} {e : Entry}

theorem unwritten (h : InCall m k inner) (hmax : e.instruction = .jsr → inner.length + 1 ≤ 127)
    (hspared : m.StoreSpares k e) :
    m.cpu.sp.toUInt16 ∉ e.writes (m.stepped k).operand (m.stepped k) ∧
      m.cpu.sp.toUInt16 + 1 ∉ e.writes (m.stepped k).operand (m.stepped k) := by
  unfold Entry.writes
  cases hi : e.instruction with
  | load r => exact ⟨List.not_mem_nil, List.not_mem_nil⟩
  | store r =>
    have hcell := hspared (by rw [hi]; rfl)
    simp only [openCells, h.calls, List.flatMap_append, List.mem_append, not_or] at hcell
    obtain ⟨-, hcell⟩ := hcell
    simp only [List.flatMap_singleton, List.mem_cons, List.not_mem_nil, or_false, not_or] at hcell
    simp [Ne.symm hcell.1, Ne.symm hcell.2]
  | jsr =>
    -- the new slot is an even distance below the old one, and less than all the way round
    obtain ⟨h1, h2, h3, h4⟩ := slots_disjoint m.cpu.sp (by omega) (hmax hi)
    rw [← h.sp] at h1 h2 h3 h4
    simp [h1, h2, h3, h4]
  | rts => exact ⟨List.not_mem_nil, List.not_mem_nil⟩
  | nop => exact ⟨List.not_mem_nil, List.not_mem_nil⟩

theorem keeps_next (h : InCall m k inner) (he : (m.stepped k).decoded = some e)
    (hmax : e.instruction = .jsr → inner.length + 1 ≤ 127) (hspared : m.StoreSpares k e) :
    m.Keeps (k + 1) := by
  obtain ⟨hlow, hhigh⟩ := h.unwritten hmax hspared
  rw [Keeps, stepped_of_entry he]
  exact ⟨(e.effect_read _ _ hlow).trans h.keeps.1, (e.effect_read _ _ hhigh).trans h.keeps.2⟩

theorem call (h : InCall m k inner) (he : (m.stepped k).decoded = some e)
    (hi : e.instruction = .jsr) (hkeeps : m.Keeps (k + 1)) :
    InCall m (k + 1) ((m.stepped k).cpu.sp.toUInt16 :: inner) := by
  have hni := nextInstruction_of_entry he
  refine ⟨?_, ?_, ?_, hkeeps⟩
  · simp only [openCalls, hni, hi, h.calls, List.cons_append]
  · rw [depth_succ, h.depth, callChange, hni, hi, List.length_cons]
    rfl
  · rw [stepped_of_entry he, e.effect_sp, hi]
    simp only [h.sp, List.length_cons, slot_below]

theorem leave {a : UInt16} (h : InCall m k (a :: inner)) (he : (m.stepped k).decoded = some e)
    (hi : e.instruction = .rts) (hkeeps : m.Keeps (k + 1)) :
    InCall m (k + 1) inner := by
  have hni := nextInstruction_of_entry he
  refine ⟨?_, ?_, ?_, hkeeps⟩
  · simp only [openCalls, hni, hi, h.calls, List.cons_append, List.tail_cons]
  · rw [depth_succ, h.depth, callChange, hni, hi, List.length_cons]
    push_cast
    omega
  · rw [stepped_of_entry he, e.effect_sp, hi]
    simp only [h.sp, List.length_cons]
    rw [← slot_below, UInt8.sub_add_cancel]

theorem stay (h : InCall m k inner) (he : (m.stepped k).decoded = some e)
    (hcall : e.instruction ≠ .jsr) (hleave : e.instruction ≠ .rts) (hkeeps : m.Keeps (k + 1)) :
    InCall m (k + 1) inner := by
  have hni := nextInstruction_of_entry he
  refine ⟨?_, ?_, ?_, hkeeps⟩
  · rw [← h.calls, openCalls, hni]
    split <;> simp_all
  · rw [depth_succ, h.depth, callChange, hni]
    split <;> simp_all
  · rw [← h.sp, stepped_of_entry he, e.effect_sp]
    split <;> simp_all

theorem next (h : InCall m k inner) (he : (m.stepped k).decoded = some e)
    (hopen : 1 ≤ m.depth (k + 1)) (hmax : m.depth (k + 1) ≤ 128) (hspared : m.StoreSpares k e) :
    ∃ inner', InCall m (k + 1) inner' := by
  rw [depth_succ, h.depth, callChange, nextInstruction_of_entry he] at hopen hmax
  have hkeeps := h.keeps_next he (fun hi => by simp only [hi] at hmax; omega) hspared
  cases hi : e.instruction with
  | load r => exact ⟨inner, h.stay he (by simp [hi]) (by simp [hi]) hkeeps⟩
  | store r => exact ⟨inner, h.stay he (by simp [hi]) (by simp [hi]) hkeeps⟩
  | nop => exact ⟨inner, h.stay he (by simp [hi]) (by simp [hi]) hkeeps⟩
  | jsr => exact ⟨_, h.call he hi hkeeps⟩
  | rts =>
    cases inner with
    | nil => simp [hi] at hopen
    | cons a rest => exact ⟨rest, h.leave he hi hkeeps⟩

theorem resume (h : InCall m k inner) (he : (m.stepped k).decoded = some e)
    (hreturn : m.depth (k + 1) = 0) :
    (m.stepped (k + 1)).cpu.pc = m.cpu.pc + 3 ∧ (m.stepped (k + 1)).cpu.sp = m.cpu.sp := by
  have hni := nextInstruction_of_entry he
  rw [depth_succ, h.depth, callChange, hni] at hreturn
  have hi : e.instruction = .rts := by
    cases hi : e.instruction with
    | rts => rfl
    | load r => simp only [hi] at hreturn; omega
    | store r => simp only [hi] at hreturn; omega
    | jsr => simp only [hi] at hreturn; omega
    | nop => simp only [hi] at hreturn; omega
  obtain rfl : inner = [] := by
    simp only [hi] at hreturn
    exact List.length_eq_zero_iff.mp (by omega)
  have hsp : (m.stepped k).cpu.sp + 2 = m.cpu.sp := by
    rw [h.sp]
    exact UInt8.sub_add_cancel m.cpu.sp 2
  have hword : Bus.wordAt (m.stepped k).bus m.cpu.sp.toUInt16 = m.cpu.pc + 2 := by
    rw [Bus.wordAt, Memory.bus_read, Memory.bus_read, h.keeps.1, h.keeps.2, Word.ofBytes_low_high]
  rw [stepped_of_entry he, Entry.effect, hi]
  simp only [hsp, hword, and_true]
  rw [UInt16.add_assoc]
  rfl

end InCall

theorem call_returns (m : Machine Memory) (n : ℕ) (hrun : m.Completes n)
    (hcall : m.nextInstruction = some .jsr) (hn : 0 < n)
    (hopen : ∀ k, 0 < k → k < n → 1 ≤ m.depth k) (hreturn : m.depth n = 0)
    (hnested : ∀ k ≤ n, m.depth k ≤ 128) (hspared : m.SparesCalls n) :
    (m.stepped n).cpu.pc = m.cpu.pc + 3 ∧ (m.stepped n).cpu.sp = m.cpu.sp := by
  -- before the last return every machine is in the call, under the inner calls open there
  have inside : ∀ k, k + 1 < n → ∃ inner, InCall m (k + 1) inner := by
    intro k
    induction k with
    | zero => exact fun _ => ⟨[], inCall_one hcall⟩
    | succ k ih =>
      intro hk
      obtain ⟨inner, h⟩ := ih (by omega)
      obtain ⟨e, he⟩ := hrun.decoded (show k + 1 < n by omega)
      exact h.next he (hopen _ (by omega) hk) (hnested _ (by omega))
        (hspared (k + 1) (by omega) e he)
  have hone := (inCall_one hcall).depth
  obtain ⟨k, rfl⟩ : ∃ k, n = k + 2 := by
    refine ⟨n - 2, ?_⟩
    by_contra hlt
    obtain rfl : n = 1 := by omega
    rw [hreturn] at hone
    simp at hone
  obtain ⟨inner, h⟩ := inside k (by omega)
  obtain ⟨e, he⟩ := hrun.decoded (show k + 1 < k + 2 by omega)
  exact h.resume he hreturn

def nestedCells (address : UInt16) : UInt8 :=
  if address = 0x8000 ∨ address = 0x9000 then 0x20
  else if address = 0x8002 then 0x90
  else if address = 0x9002 then 0xA0
  else if address = 0xA000 then 0x85
  else if address = 0xA001 then 0x10
  else if address = 0xA002 ∨ address = 0x9003 then 0x60
  else 0

/-- A call within a call, around a store. The inner slot lies across the end of the first page. -/
def nestedCalls : Machine Memory where
  cpu := { Cpu.initial with pc := 0x8000, sp := 1 }
  bus := .ofFn nestedCells

theorem onCells_nestedCalls : nestedCalls.onCells = ⟨nestedCalls.cpu, nestedCells⟩ := by
  have h : nestedCalls.bus.read = nestedCells := funext (Memory.read_ofFn nestedCells)
  rw [onCells, h]

theorem nested_calls_return :
    nestedCalls.Completes 5 ∧ nestedCalls.nextInstruction = some .jsr ∧
    (∀ k, 0 < k → k < 5 → 1 ≤ nestedCalls.depth k) ∧ nestedCalls.depth 5 = 0 ∧
    (∀ k ≤ 5, nestedCalls.depth k ≤ 128) ∧ nestedCalls.SparesCalls 5 ∧
    (nestedCalls.stepped 5).cpu.pc = 0x8003 ∧ (nestedCalls.stepped 5).cpu.sp = 1 := by
  have hrun : nestedCalls.Completes 5 := by
    rw [completes_iff]
    intro k
    change k < 5 → (nestedCalls.stepped k).onCells.decoded.isSome
    rw [stepped_onCells, onCells_nestedCalls]
    revert k
    decide
  have hcall : nestedCalls.nextInstruction = some .jsr := by
    change nestedCalls.onCells.nextInstruction = _
    rw [onCells_nestedCalls]
    decide
  have hdepth : ∀ k ≤ 5, nestedCalls.depth k = [0, 1, 2, 2, 1, 0][k]! := by
    intro k
    rw [← depth_onCells, onCells_nestedCalls]
    revert k
    decide
  have hspared : nestedCalls.SparesCalls 5 := by
    apply sparesCalls_of_onCells
    rw [onCells_nestedCalls]
    decide
  have hopen : ∀ k, 0 < k → k < 5 → 1 ≤ nestedCalls.depth k := by
    intro k h0 h5
    rw [hdepth k h5.le]
    obtain rfl | rfl | rfl | rfl : k = 1 ∨ k = 2 ∨ k = 3 ∨ k = 4 := by omega
    all_goals decide
  have hnested : ∀ k ≤ 5, nestedCalls.depth k ≤ 128 := by
    intro k hk
    rw [hdepth k hk]
    revert k
    decide
  have hreturn := hdepth 5 le_rfl
  exact ⟨hrun, hcall, hopen, hreturn, hnested, hspared,
    call_returns nestedCalls 5 hrun hcall (by decide) hopen hreturn hnested hspared⟩

end Machine

end Mos6502
