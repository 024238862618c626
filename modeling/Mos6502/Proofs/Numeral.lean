import Mathlib.Algebra.Ring.Nat
import Mathlib.Data.List.Basic
import Mathlib.Data.List.Induction
import Mos6502.Hex
/-!
Hexadecimal numerals. A text of digits stands for one number, and the digits written for a number
that has no more than the asked ones are the only numeral of that width for it.
-/

namespace Mos6502.Hex

/-- The sixteen digits in order. -/
def alphabet : Letters → List Char
  | .upper => ['0', '1', '2', '3', '4', '5', '6', '7', '8', '9', 'A', 'B', 'C', 'D', 'E', 'F']
  | .lower => ['0', '1', '2', '3', '4', '5', '6', '7', '8', '9', 'a', 'b', 'c', 'd', 'e', 'f']

/-- The number that digits stand for. -/
def value (letters : Letters) (text : List Char) : Nat :=
  text.foldl (fun n c => 16 * n + (alphabet letters).idxOf c) 0

/-- A text is the numeral of `n` with `width` digits. -/
structure Numeral (letters : Letters) (width n : Nat) (text : List Char) : Prop where
  length : text.length = width
  digits : ∀ c ∈ text, c ∈ alphabet letters
  value : value letters text = n

/-- Reads a numeral of the given width. -/
def number? (letters : Letters) (width : Nat) (text : List Char) : Option Nat :=
  if text.length = width ∧ text.all (alphabet letters).contains then some (value letters text)
  else none

theorem Numeral.number? {letters : Letters} {width n : Nat} {text : List Char}
    (h : Numeral letters width n text) : number? letters width text = some n := by
  have hdigits : text.all (alphabet letters).contains = true := by simpa using h.digits
  rw [Hex.number?, if_pos ⟨h.length, hdigits⟩, h.value]

theorem digit_mem (letters : Letters) : ∀ d < 16, digit letters d ∈ alphabet letters := by
  cases letters <;> decide

theorem idxOf_digit (letters : Letters) :
    ∀ d < 16, (alphabet letters).idxOf (digit letters d) = d := by
  cases letters <;> decide

theorem getElem?_alphabet (letters : Letters) :
    ∀ d < 16, (alphabet letters)[d]? = some (digit letters d) := by
  cases letters <;> decide

theorem idxOf_lt {letters : Letters} {c : Char} (h : c ∈ alphabet letters) :
    (alphabet letters).idxOf c < 16 := by
  have hlength : (alphabet letters).length = 16 := by cases letters <;> rfl
  have hidx := List.idxOf_lt_length_of_mem h
  rwa [hlength] at hidx

theorem digit_idxOf {letters : Letters} {c : Char} (h : c ∈ alphabet letters) :
    digit letters ((alphabet letters).idxOf c) = c := by
  have hdigit := getElem?_alphabet letters _ (idxOf_lt h)
  rw [List.getElem?_idxOf h] at hdigit
  exact (Option.some.inj hdigit).symm

theorem value_append (letters : Letters) (text : List Char) (c : Char) :
    value letters (text ++ [c]) = 16 * value letters text + (alphabet letters).idxOf c := by
  simp [value]

theorem numeral_digits (letters : Letters) {width n : Nat} (h : n < 16 ^ width) :
    Numeral letters width n (digits letters width n) := by
  induction width generalizing n with
  | zero =>
    obtain rfl : n = 0 := by omega
    exact ⟨rfl, by simp [digits], rfl⟩
  | succ width ih =>
    have hlast : n % 16 < 16 := Nat.mod_lt n (by decide)
    obtain ⟨-, hdigits, hvalue⟩ := ih (n := n / 16) (by rw [Nat.pow_succ] at h; omega)
    constructor
    · exact length_digits letters (width + 1) n
    · intro c hc
      rw [digits, List.mem_append, List.mem_singleton] at hc
      rcases hc with hc | rfl
      · exact hdigits c hc
      · exact digit_mem letters (n % 16) hlast
    · rw [digits, value_append, hvalue, idxOf_digit letters (n % 16) hlast]
      omega

/-- The digits of a number that has no more than the asked ones are its only numeral. -/
theorem numeral_iff {letters : Letters} {width n : Nat} {text : List Char} :
    Numeral letters width n text ↔ n < 16 ^ width ∧ text = digits letters width n := by
  constructor
  · rintro ⟨rfl, hdigits, rfl⟩
    induction text using List.reverseRecOn with
    | nil => exact ⟨Nat.zero_lt_one, rfl⟩
    | append_singleton text c ih =>
      have hc : c ∈ alphabet letters := hdigits c (by simp)
      obtain ⟨hlt, htext⟩ := ih fun d hd => hdigits d (List.mem_append_left [c] hd)
      have hlast := idxOf_lt hc
      have hquotient : (16 * value letters text + (alphabet letters).idxOf c) / 16 =
          value letters text := by omega
      have hremainder : (16 * value letters text + (alphabet letters).idxOf c) % 16 =
          (alphabet letters).idxOf c := by omega
      rw [value_append, List.length_append, List.length_singleton, digits, hquotient, hremainder,
        ← htext, digit_idxOf hc, Nat.pow_succ]
      exact ⟨by omega, rfl⟩
  · rintro ⟨hn, rfl⟩
    exact numeral_digits letters hn

theorem number?_eq_some_iff {letters : Letters} {width n : Nat} {text : List Char} :
    number? letters width text = some n ↔ Numeral letters width n text := by
  constructor
  · intro h
    rw [number?, Option.ite_none_right_eq_some] at h
    obtain ⟨⟨hlength, hdigits⟩, hvalue⟩ := h
    exact ⟨hlength, by simpa using hdigits, Option.some.inj hvalue⟩
  · exact Numeral.number?

theorem numeral_byte (letters : Letters) (b : UInt8) :
    Numeral letters 2 b.toNat (byte letters b) := numeral_digits letters b.toNat_lt

theorem numeral_word (letters : Letters) (w : UInt16) :
    Numeral letters 4 w.toNat (word letters w) := numeral_digits letters w.toNat_lt

end Mos6502.Hex
