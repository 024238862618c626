import Mos6502.Proofs.Flags
/-!
Flags decide nothing. Two machines that differ in their flags only make every step in the same way,
byte by byte on the bus, and differ in their flags only after it: `flags_lockstep`. So they answer
all requests alike, and once both have loaded a byte they agree on Z and N as well.
-/

namespace Mos6502

namespace Machine

variable {β : Type}

def withFlags (m : Machine β) (f : Flags) : Machine β := { m with cpu := { m.cpu with flags := f } }

/-- Machines that are the same but for their flags. -/
structure SameButFlags (m q : Machine β) : Prop where
  pc : m.cpu.pc = q.cpu.pc
  sp : m.cpu.sp = q.cpu.sp
  a : m.cpu.a = q.cpu.a
  x : m.cpu.x = q.cpu.x
  y : m.cpu.y = q.cpu.y
  bus : m.bus = q.bus

theorem sameButFlags_withFlags (m : Machine β) (f : Flags) : SameButFlags m (m.withFlags f) :=
  ⟨rfl, rfl, rfl, rfl, rfl, rfl⟩

theorem SameButFlags.eq_withFlags {m q : Machine β} (h : SameButFlags m q) :
    q = m.withFlags q.cpu.flags := by
  obtain ⟨⟨pc, sp, a, x, y, f⟩, bus⟩ := m
  obtain ⟨⟨pc', sp', a', x', y', f'⟩, bus'⟩ := q
  obtain ⟨hpc, hsp, ha, hx, hy, hbus⟩ := h
  dsimp only at hpc hsp ha hx hy hbus
  subst hpc hsp ha hx hy hbus
  rfl

@[simp] theorem register_withFlags (m : Machine β) (f : Flags) (r : Register) :
    (m.withFlags f).cpu.register r = m.cpu.register r := by
  cases r <;> rfl

variable [Bus β]

@[simp] theorem fetch_withFlags (m : Machine β) (f : Flags) (offset : UInt16) :
    (m.withFlags f).fetch offset = m.fetch offset := rfl

@[simp] theorem operand_withFlags (m : Machine β) (f : Flags) :
    (m.withFlags f).operand = m.operand := rfl

@[simp] theorem decoded_withFlags (m : Machine β) (f : Flags) :
    (m.withFlags f).decoded = m.decoded := rfl

end Machine

variable {β : Type} [Bus β]

namespace Mode

@[simp] theorem cell_withFlags (mode : Mode) (o : Operand) (m : Machine β) (f : Flags) :
    mode.cell o (m.withFlags f) = mode.cell o m := by
  cases mode <;> rfl

@[simp] theorem value_withFlags (mode : Mode) (o : Operand) (m : Machine β) (f : Flags) :
    mode.value o (m.withFlags f) = mode.value o m := by
  cases mode <;> rfl

@[simp] theorem finding_withFlags (charge : IndexCharge) (mode : Mode) (m : Machine β) (f : Flags) :
    mode.finding charge (m.withFlags f) = mode.finding charge m := by
  cases mode <;> rfl

@[simp] theorem reading_withFlags (mode : Mode) (m : Machine β) (f : Flags) :
    mode.reading (m.withFlags f) = mode.reading m := by
  cases mode <;> rfl

end Mode

namespace Entry

theorem loaded_withFlags (e : Entry) (m : Machine β) (f : Flags) :
    e.loaded (m.withFlags f) = e.loaded m := by
  unfold loaded
  cases e.instruction <;> simp

theorem cycles_withFlags (e : Entry) (m : Machine β) (f : Flags) :
    e.cycles (m.withFlags f) = e.cycles m := by
  unfold cycles work
  cases e.instruction with
  | load r => simp
  | store r => simp
  | jsr => rfl
  | rts => rfl
  | nop => rfl

/-- An instruction does the same to all but the flags, whatever they are. -/
theorem effect_withFlags (e : Entry) (o : Operand) (m : Machine β) (f : Flags) :
    Machine.SameButFlags (e.effect o m) (e.effect o (m.withFlags f)) := by
  unfold effect
  cases e.instruction with
  | load r =>
    simp only [Mode.value_withFlags]
    cases r <;> exact ⟨rfl, rfl, rfl, rfl, rfl, rfl⟩
  | store r =>
    simp only [Mode.cell_withFlags, Machine.register_withFlags]
    exact ⟨rfl, rfl, rfl, rfl, rfl, rfl⟩
  | jsr => exact ⟨rfl, rfl, rfl, rfl, rfl, rfl⟩
  | rts => exact ⟨rfl, rfl, rfl, rfl, rfl, rfl⟩
  | nop => exact ⟨rfl, rfl, rfl, rfl, rfl, rfl⟩

end Entry

namespace Machine

variable {m q : Machine β}

theorem step_withFlags (m : Machine β) (f : Flags) :
    Outcome.Alike SameButFlags m.step (m.withFlags f).step := by
  cases hd : m.decoded with
  | none =>
    rw [step_of_unknown hd, step_of_unknown (m := m.withFlags f) hd]
    exact ⟨rfl, rfl, m.sameButFlags_withFlags f⟩
  | some e =>
    rw [step_of_entry hd, step_of_entry (m := m.withFlags f) hd, e.cycles_withFlags]
    exact ⟨rfl, rfl, e.effect_withFlags m.operand m f⟩

theorem flags_lockstep : Lockstep (fun _ => True) (SameButFlags (β := β)) where
  step := by
    intro m q h _
    rw [h.eq_withFlags]
    exact m.step_withFlags q.cpu.flags

namespace SameButFlags

theorem stepped (h : SameButFlags m q) (n : ℕ) : SameButFlags (m.stepped n) (q.stepped n) :=
  flags_lockstep.stepped h n fun _ _ => trivial

theorem serve (h : SameButFlags m q) (requests : List Request) :
    Outcome.Alike SameButFlags (m.serve requests) (q.serve requests) :=
  flags_lockstep.serve h requests fun _ _ => trivial

theorem loaded (h : SameButFlags m q) : m.loaded = q.loaded := by
  rw [h.eq_withFlags, Machine.loaded, Machine.loaded, decoded_withFlags]
  simp only [Entry.loaded_withFlags]

theorem lastLoaded (h : SameButFlags m q) (n : ℕ) : m.lastLoaded n = q.lastLoaded n := by
  induction n with
  | zero => rfl
  | succ n ih => rw [Machine.lastLoaded, Machine.lastLoaded, ih, (h.stepped n).loaded]

theorem flags (h : SameButFlags m q) {n : ℕ} (hload : m.lastLoaded n ≠ none) :
    (m.stepped n).cpu.flags.z = (q.stepped n).cpu.flags.z ∧
      (m.stepped n).cpu.flags.n = (q.stepped n).cpu.flags.n := by
  obtain ⟨v, hv⟩ := Option.ne_none_iff_exists'.mp hload
  rw [stepped_flags, stepped_flags, ← h.lastLoaded, hv]
  exact ⟨rfl, rfl⟩

end SameButFlags

/-- How a session goes on machines that are the same but for their flags. -/
structure FlagsIgnored (m q : Machine β) (requests : List Request) : Prop where
  answers : (m.serve requests).value = (q.serve requests).value
  timeline : (m.serve requests).timeline = (q.serve requests).timeline
  /-- So it is after each request, and once a load has completed Z and N are the same too. -/
  states : ∀ done, done <+: requests → ∃ n, m.Performs done n ∧ q.Performs done n ∧
    SameButFlags (m.serve done).state (q.serve done).state ∧
    ((∃ k < n, ∃ r, (m.stepped k).nextInstruction = some (.load r)) →
      (m.serve done).state.cpu.flags.z = (q.serve done).state.cpu.flags.z ∧
      (m.serve done).state.cpu.flags.n = (q.serve done).state.cpu.flags.n)

theorem flags_ignored (h : SameButFlags m q) (requests : List Request) :
    FlagsIgnored m q requests := by
  constructor
  · exact (h.serve requests).value
  · exact (h.serve requests).timeline
  · intro done _
    obtain ⟨n, hn⟩ := m.exists_performs done
    have hq := flags_lockstep.performs h hn
    refine ⟨n, hn, hq, (h.serve done).state, ?_⟩
    rintro ⟨k, hk, r, hr⟩
    rw [hn.state, hq.state]
    apply h.flags
    intro hnone
    exact loaded_eq_none_iff.mp (lastLoaded_eq_none_iff.mp hnone k hk) r hr

/-- A load of zero and a store, and behind them a byte that is no instruction. -/
def zeroStore : Machine Memory where
  cpu := .initial
  bus := Memory.zero.load resetVector [0xA9, 0x00, 0x85, 0x10]

def allFlags : Flags := ⟨true, true, true, true, true, true, true⟩

theorem zero_store_ignores_flags :
    SameButFlags zeroStore (zeroStore.withFlags allFlags) ∧
    zeroStore.cpu.flags ≠ (zeroStore.withFlags allFlags).cpu.flags ∧
    zeroStore.nextInstruction = some (.load .a) ∧
    FlagsIgnored zeroStore (zeroStore.withFlags allFlags) [.step, .execute 9, .step] := by
  have hsame := zeroStore.sameButFlags_withFlags allFlags
  have hload : zeroStore.nextInstruction = some (.load .a) := by
    have hopcode : zeroStore.opcode = 0xA9 := by
      rw [opcode, zeroStore]
      simp [Memory.load, Memory.read_write, Cpu.initial, resetVector]
    rw [nextInstruction, decoded, hopcode]
    rfl
  exact ⟨hsame, by decide, hload, flags_ignored hsame _⟩

end Machine

end Mos6502
