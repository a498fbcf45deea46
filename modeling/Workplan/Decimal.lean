/-
# Workplan.Decimal — decimal numbers and the range of floating point

A decimal number is a whole number times a power of ten. Whether the floating-point number of 64 bits
that is nearest to it is finite can be told in whole numbers, without forming a power of ten that is
far larger than the answer needs.

* `exceedsFloat_natCast` and `exceedsFloat_neg`: the number is compared with the ceiling exactly, for
  powers of ten of either sign.
-/
namespace Workplan

set_option autoImplicit false

/-- The number `size * 10 ^ exponent`. -/
structure Decimal where
  size : Nat
  exponent : Int

namespace Decimal

/-- The middle between the greatest finite floating-point number and the next power of two; it and
all numbers above it round to infinity. -/
def ceiling : Nat := (Nat.pow 2 54 - 1) * Nat.pow 2 970

/-- The power of ten that is written with so many zeros. -/
def tenTo (zeros : Nat) : Nat := Nat.pow 10 zeros

/-- Whether the number rounds to infinity. A number below one does not, and one with more zeros at its
end than the ceiling has digits does. -/
def exceedsFloat (d : Decimal) : Bool :=
  let zeros := d.exponent.natAbs
  if d.size = 0 then false
  else if d.exponent < 0 then zeros ≤ d.size.log2 && ceiling * tenTo zeros ≤ d.size
  else 310 ≤ zeros || ceiling ≤ d.size * tenTo zeros

theorem ceiling_pos : 0 < ceiling := by decide +kernel

theorem tenTo_pos (zeros : Nat) : 0 < tenTo zeros := Nat.pow_pos (by decide)

theorem tenTo_mono {few many : Nat} (more : few ≤ many) : tenTo few ≤ tenTo many :=
  Nat.pow_le_pow_right (by decide) more

theorem ceiling_le_tenTo {zeros : Nat} (many : 310 ≤ zeros) : ceiling ≤ tenTo zeros :=
  calc
    ceiling ≤ tenTo 310 := by decide +kernel
    _ ≤ tenTo zeros := tenTo_mono many

theorem lt_tenTo_of_log2_lt {size zeros : Nat} (few : size.log2 < zeros) : size < tenTo zeros :=
  calc
    size < Nat.pow 2 (size.log2 + 1) := Nat.lt_log2_self
    _ ≤ Nat.pow 2 zeros := Nat.pow_le_pow_right (by decide) few
    _ ≤ tenTo zeros := Nat.pow_le_pow_left (by decide) zeros

theorem exceedsFloat_zero (exponent : Int) : exceedsFloat ⟨0, exponent⟩ = false := rfl

theorem exceedsFloat_natCast (size zeros : Nat) :
    exceedsFloat ⟨size, zeros⟩ = true ↔ ceiling ≤ size * tenTo zeros := by
  have positive := ceiling_pos
  by_cases nothing : size = 0
  · subst nothing
    rw [exceedsFloat_zero, Nat.zero_mul]
    exact iff_of_false Bool.false_ne_true (Nat.not_le.2 positive)
  · by_cases many : 310 ≤ zeros
    · have large : ceiling ≤ size * tenTo zeros :=
        Nat.le_trans (ceiling_le_tenTo many) (Nat.le_mul_of_pos_left _ (Nat.pos_of_ne_zero nothing))
      simp [exceedsFloat, nothing, many, large]
    · have above : ¬ (zeros : Int) < 0 := by omega
      simp [exceedsFloat, nothing, many, above]

theorem exceedsFloat_neg (size zeros : Nat) :
    exceedsFloat ⟨size, -(zeros : Int)⟩ = true ↔ ceiling * tenTo zeros ≤ size := by
  have positive := ceiling_pos
  by_cases whole : zeros = 0
  · subst whole
    have one : tenTo 0 = 1 := rfl
    simpa [one] using exceedsFloat_natCast size 0
  · by_cases nothing : size = 0
    · subst nothing
      rw [exceedsFloat_zero]
      exact iff_of_false Bool.false_ne_true (Nat.not_le.2 (Nat.mul_pos positive (tenTo_pos zeros)))
    · by_cases few : size.log2 < zeros
      · have small : size < ceiling * tenTo zeros :=
          Nat.lt_of_lt_of_le (lt_tenTo_of_log2_lt few) (Nat.le_mul_of_pos_left _ positive)
        simp [exceedsFloat, nothing, whole, Nat.not_le.2 few, Nat.not_le.2 small]
      · simp [exceedsFloat, nothing, whole, Nat.not_lt.1 few]

end Decimal

end Workplan
