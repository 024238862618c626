/-!
Words of two bytes. In memory the low byte comes first; `Word.ofBytes` puts a word together and
`Word.low`, `Word.high` take it apart, and the two are inverse.
-/

namespace Mos6502.Word

/-- The word with the given low and high byte. -/
def ofBytes (low high : UInt8) : UInt16 :=
  high.toUInt16 * 256 + low.toUInt16

def low (w : UInt16) : UInt8 := w.toUInt8

def high (w : UInt16) : UInt8 := (w / 256).toUInt8

theorem toNat_ofBytes (low high : UInt8) :
    (ofBytes low high).toNat = low.toNat + 256 * high.toNat := by
  have hl := low.toNat_lt
  have hh := high.toNat_lt
  simp only [ofBytes, UInt16.toNat_add, UInt16.toNat_mul, UInt8.toNat_toUInt16,
    UInt16.reduceToNat]
  omega

theorem toNat_low (w : UInt16) : (low w).toNat = w.toNat % 256 := by
  simp [low]

theorem toNat_high (w : UInt16) : (high w).toNat = w.toNat / 256 := by
  have hw := w.toNat_lt
  simp only [high, UInt16.toNat_toUInt8, UInt16.toNat_div, UInt16.reduceToNat]
  omega

@[simp] theorem low_ofBytes (a b : UInt8) : low (ofBytes a b) = a := by
  apply UInt8.toNat_inj.mp
  rw [toNat_low, toNat_ofBytes]
  have := a.toNat_lt
  omega

@[simp] theorem high_ofBytes (a b : UInt8) : high (ofBytes a b) = b := by
  apply UInt8.toNat_inj.mp
  rw [toNat_high, toNat_ofBytes]
  have := a.toNat_lt
  omega

@[simp] theorem ofBytes_low_high (w : UInt16) : ofBytes (low w) (high w) = w := by
  apply UInt16.toNat_inj.mp
  rw [toNat_ofBytes, toNat_low, toNat_high]
  omega

end Mos6502.Word
