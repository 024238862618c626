import Mathlib.Data.Nat.Bitwise
import Mos6502.Proofs.Session
/-!
What the flags tell. Of all instructions only loads touch the flags, and a load touches Z and N
only. After any session these two tell of the byte that was loaded last, whatever came after it, and
the other flags are as they were.
-/

namespace Mos6502

variable {β : Type} [Bus β]

namespace Flags

/-- The flags after a load of `v`. -/
def telling (f : Flags) (v : UInt8) : Flags := { f with z := v == 0, n := v &&& 0x80 != 0 }

/-- The flags after loads of which the last, if there is one, is of the given byte. -/
def after (f : Flags) : Option UInt8 → Flags
  | none => f
  | some v => f.telling v

@[simp] theorem after_none (f : Flags) : f.after none = f := rfl

@[simp] theorem after_some (f : Flags) (v : UInt8) : f.after (some v) = f.telling v := rfl

@[simp] theorem telling_telling (f : Flags) (u v : UInt8) :
    (f.telling u).telling v = f.telling v := rfl

theorem after_after (f : Flags) (first last : Option UInt8) :
    (f.after first).after last = f.after (last.or first) := by
  cases last with
  | none => simp
  | some v => cases first <;> simp

theorem after_kept (f : Flags) (v : Option UInt8) :
    (f.after v).c = f.c ∧ (f.after v).i = f.i ∧ (f.after v).d = f.d ∧ (f.after v).b = f.b ∧
      (f.after v).v = f.v := by
  cases v <;> exact ⟨rfl, rfl, rfl, rfl, rfl⟩

theorem z_telling (f : Flags) (v : UInt8) : (f.telling v).z = true ↔ v = 0 := beq_iff_eq

theorem n_telling (f : Flags) (v : UInt8) : (f.telling v).n = true ↔ v.toNat.testBit 7 = true := by
  have hbit : v.toNat &&& 128 = (v.toNat.testBit 7).toNat * 2 ^ 7 := Nat.and_two_pow v.toNat 7
  have hn : (f.telling v).n = true ↔ v.toNat &&& 128 ≠ 0 := by
    simp [telling, ← UInt8.toNat_inj]
  rw [hn, hbit]
  cases v.toNat.testBit 7 <;> decide

theorem telling_eq (f : Flags) (v : UInt8) :
    f.telling v = { f with z := v = 0, n := v.toNat.testBit 7 } := by
  have hz : (f.telling v).z = decide (v = 0) := by
    rw [Bool.eq_iff_iff, z_telling, decide_eq_true_iff]
  have hn : (f.telling v).n = v.toNat.testBit 7 := by
    rw [Bool.eq_iff_iff, n_telling]
  rw [← hz, ← hn]
  rfl

/-- No byte is both zero and negative. -/
theorem apart_telling (f : Flags) (v : UInt8) :
    ¬ ((f.telling v).z = true ∧ (f.telling v).n = true) := by
  rintro ⟨hz, hn⟩
  rw [z_telling] at hz
  rw [n_telling, hz] at hn
  exact absurd hn (by decide)

end Flags

namespace Entry

/-- The byte that an instruction brings into a register, if it is a load. -/
def loaded (e : Entry) (m : Machine β) : Option UInt8 :=
  match e.instruction with
  | .load _ => some (e.mode.value m.operand m)
  | _ => none

theorem effect_flags (e : Entry) (m : Machine β) :
    (e.effect m.operand m).cpu.flags = m.cpu.flags.after (e.loaded m) := by
  unfold effect loaded
  cases e.instruction with
  | load r => cases r <;> rfl
  | store r => rfl
  | jsr => rfl
  | rts => rfl
  | nop => rfl

theorem effect_register {e : Entry} {r : Register} (h : e.instruction = .load r)
    (m : Machine β) : (e.effect m.operand m).cpu.register r = e.mode.value m.operand m := by
  unfold effect
  simp only [h]
  cases r <;> rfl

end Entry

namespace Machine

/-- The byte that the next step loads, if it is a load that completes. -/
def loaded (m : Machine β) : Option UInt8 := m.decoded.bind fun e => e.loaded m

/-- The last byte that the first `n` steps load. -/
def lastLoaded (m : Machine β) : ℕ → Option UInt8
  | 0 => none
  | n + 1 => (m.stepped n).loaded.or (m.lastLoaded n)

theorem loaded_of_entry {m : Machine β} {e : Entry} (h : m.decoded = some e) :
    m.loaded = e.loaded m := by
  rw [loaded, h, Option.bind_some]

theorem loaded_eq_none_iff {m : Machine β} :
    m.loaded = none ↔ ∀ r, m.nextInstruction ≠ some (.load r) := by
  cases hd : m.decoded with
  | none => simp [loaded, nextInstruction, hd]
  | some e =>
    rw [loaded_of_entry hd, nextInstruction_of_entry hd, Entry.loaded]
    cases e.instruction <;> simp

/-- A step that fails leaves the flags alone like any other step that is no load. -/
theorem next_flags (m : Machine β) : m.next.cpu.flags = m.cpu.flags.after m.loaded := by
  cases hd : m.decoded with
  | none => rw [next, step_of_unknown hd, loaded, hd, Option.bind_none, Flags.after_none]
  | some e => rw [next_of_entry hd, loaded_of_entry hd, e.effect_flags]

theorem stepped_flags (m : Machine β) (n : ℕ) :
    (m.stepped n).cpu.flags = m.cpu.flags.after (m.lastLoaded n) := by
  induction n with
  | zero => rfl
  | succ n ih => rw [stepped_succ, next_flags, ih, Flags.after_after, lastLoaded]

theorem lastLoaded_eq_none_iff {m : Machine β} {n : ℕ} :
    m.lastLoaded n = none ↔ ∀ k < n, (m.stepped k).loaded = none := by
  induction n with
  | zero => simp [lastLoaded]
  | succ n ih =>
    rw [lastLoaded, Option.or_eq_none_iff, ih]
    constructor
    · rintro ⟨hlast, hbefore⟩ k hk
      by_cases hkn : k = n
      · rw [hkn]
        exact hlast
      · exact hbefore k (by omega)
    · intro h
      exact ⟨h n n.lt_succ_self, fun k hk => h k (Nat.lt_succ_of_lt hk)⟩

theorem lastLoaded_of_last {m : Machine β} {n k : ℕ} {v : UInt8} (hk : k < n)
    (hv : (m.stepped k).loaded = some v)
    (hlast : ∀ j, k < j → j < n → (m.stepped j).loaded = none) : m.lastLoaded n = some v := by
  induction n with
  | zero => exact absurd hk k.not_lt_zero
  | succ n ih =>
    rw [lastLoaded]
    by_cases hkn : k = n
    · subst hkn
      rw [hv]
      rfl
    · have hlt : k < n := by omega
      rw [hlast n hlt n.lt_succ_self, ih hlt fun j hj hjn => hlast j hj (Nat.lt_succ_of_lt hjn)]
      rfl

/-- The flags at the end of a session in which `n` instructions complete. -/
structure FlagsTell (m : Machine β) (requests : List Request) (n : ℕ) : Prop where
  performs : m.Performs requests n
  kept : let f := (m.serve requests).state.cpu.flags
    f.c = m.cpu.flags.c ∧ f.i = m.cpu.flags.i ∧ f.d = m.cpu.flags.d ∧ f.b = m.cpu.flags.b ∧
      f.v = m.cpu.flags.v
  /-- Z and N tell of the byte in the register that the last load went to, right after that load. -/
  told : ∀ k < n, ∀ r, (m.stepped k).nextInstruction = some (.load r) →
    (∀ j, k < j → j < n → ∀ r', (m.stepped j).nextInstruction ≠ some (.load r')) →
    let v := (m.stepped (k + 1)).cpu.register r
    (∃ e, (m.stepped k).decoded = some e ∧
      v = e.mode.value (m.stepped k).operand (m.stepped k)) ∧
    ((m.serve requests).state.cpu.flags.z = true ↔ v = 0) ∧
    ((m.serve requests).state.cpu.flags.n = true ↔ v.toNat.testBit 7 = true)
  untold : (∀ k < n, ∀ r, (m.stepped k).nextInstruction ≠ some (.load r)) →
    (m.serve requests).state.cpu.flags = m.cpu.flags
  apart : ¬ (m.cpu.flags.z = true ∧ m.cpu.flags.n = true) →
    ¬ ((m.serve requests).state.cpu.flags.z = true ∧ (m.serve requests).state.cpu.flags.n = true)

theorem flags_tell_last_load (m : Machine β) (requests : List Request) :
    ∃ n, m.FlagsTell requests n := by
  obtain ⟨n, hn⟩ := m.exists_performs requests
  have hflags := m.stepped_flags n
  rw [← hn.state] at hflags
  refine ⟨n, hn, ?_, ?_, ?_, ?_⟩
  · rw [hflags]
    exact m.cpu.flags.after_kept (m.lastLoaded n)
  · intro k hk r hload hlast v
    obtain ⟨e, he, hi⟩ := Option.map_eq_some_iff.mp hload
    have hv : v = e.mode.value (m.stepped k).operand (m.stepped k) := by
      change (m.stepped (k + 1)).cpu.register r = _
      rw [stepped_of_entry he, Entry.effect_register hi]
    have hloaded : (m.stepped k).loaded = some v := by
      rw [loaded_of_entry he, Entry.loaded, hi, hv]
    have htold : m.lastLoaded n = some v :=
      lastLoaded_of_last hk hloaded fun j hj hjn => loaded_eq_none_iff.mpr (hlast j hj hjn)
    rw [hflags, htold]
    exact ⟨⟨e, he, hv⟩, Flags.z_telling _ v, Flags.n_telling _ v⟩
  · intro hnone
    rw [hflags, lastLoaded_eq_none_iff.mpr fun k hk => loaded_eq_none_iff.mpr (hnone k hk)]
    rfl
  · intro hstart
    rw [hflags]
    cases m.lastLoaded n with
    | none => exact hstart
    | some v => exact m.cpu.flags.apart_telling v

end Machine

end Mos6502
