/-!
Numbers in hexadecimal with a fixed number of digits, most significant first. Only the last digits
of a number that needs more are written.
-/

namespace Mos6502.Hex

/-- The case of the digits above nine. -/
inductive Letters where
  | upper
  | lower
  deriving DecidableEq, Repr

/-- The code that a digit's value is added to when the digit is a letter: ten gives the first. -/
def Letters.offset : Letters → Nat
  | .upper => 55
  | .lower => 87

/-- The digit of value `d`, for `d < 16`. -/
def digit (letters : Letters) (d : Nat) : Char :=
  if d < 10 then Char.ofNat (48 + d) else Char.ofNat (letters.offset + d)

def digits (letters : Letters) : (width : Nat) → Nat → List Char
  | 0, _ => []
  | width + 1, n => digits letters width (n / 16) ++ [digit letters (n % 16)]

@[simp] theorem length_digits (letters : Letters) (width n : Nat) :
    (digits letters width n).length = width := by
  induction width generalizing n with
  | zero => rfl
  | succ width ih => simp [digits, ih]

def byte (letters : Letters) (b : UInt8) : List Char := digits letters 2 b.toNat

def word (letters : Letters) (w : UInt16) : List Char := digits letters 4 w.toNat

example : word .upper 0x0F3A = ['0', 'F', '3', 'A'] := by decide

end Mos6502.Hex
