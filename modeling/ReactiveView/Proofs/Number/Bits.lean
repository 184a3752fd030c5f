import ReactiveView.Proofs.Number.Exact

/-! The fields of binary64 numbers. The value of a number determines its exponent and its
significand, and its sign as well unless it is zero, so that numbers of one value have the same
bits, zeros apart. -/
namespace ReactiveView.Binary64

variable {x y : Binary64}

/-- The part of the significand that is kept in the bits. -/
def fraction (x : Binary64) : Nat :=
  x.bits.toNat % 2 ^ 52

theorem fraction_lt (x : Binary64) : x.fraction < 2 ^ 52 :=
  Nat.mod_lt _ (by decide)

theorem significand_eq (x : Binary64) :
    x.significand = (if x.exponentField = 0 then 0 else 2 ^ 52) + x.fraction := by
  rw [significand, Nat.one_shiftLeft]
  rfl

theorem significand_lt (x : Binary64) : x.significand < 2 ^ 53 := by
  have small := x.fraction_lt
  rw [significand_eq]
  split <;> omega

theorem magnitude_eq (x : Binary64) : x.magnitude = x.significand * 2 ^ x.place :=
  Nat.shiftLeft_eq ..

theorem natAbs_units (x : Binary64) : x.units.natAbs = x.magnitude := by
  unfold units
  split <;> simp

/-- The exponent field bounds the magnitude from above, for subnormal numbers as well. -/
theorem magnitude_lt (x : Binary64) : x.magnitude < 2 ^ 52 * 2 ^ x.exponentField := by
  have small := x.fraction_lt
  rw [magnitude_eq, place]
  cases field : x.exponentField with
  | zero =>
    rw [significand_eq, if_pos field]
    omega
  | succ e =>
    calc x.significand * 2 ^ e < 2 ^ 53 * 2 ^ e :=
          Nat.mul_lt_mul_of_pos_right x.significand_lt (Nat.two_pow_pos e)
      _ = 2 ^ 52 * 2 ^ (e + 1) := by
          rw [← Nat.pow_add, ← Nat.pow_add]
          exact congrArg (2 ^ ·) (by omega)

theorem le_magnitude (normal : x.exponentField ≠ 0) : 2 ^ 52 * 2 ^ x.place ≤ x.magnitude := by
  rw [magnitude_eq, significand_eq, if_neg normal]
  exact Nat.mul_le_mul_right _ (Nat.le_add_right _ _)

/-- A larger exponent field makes a larger magnitude. -/
theorem exponentField_le (same : x.magnitude = y.magnitude) :
    x.exponentField ≤ y.exponentField := by
  refine Nat.le_of_not_lt fun above => ?_
  have normal : x.exponentField ≠ 0 := Nat.ne_zero_of_lt above
  have covered : y.exponentField ≤ x.place := Nat.le_sub_one_of_lt above
  have lower := le_magnitude normal
  have upper := y.magnitude_lt
  have power := Nat.mul_le_mul_left (2 ^ 52) (Nat.pow_le_pow_right Nat.two_pos covered)
  omega

theorem fields_of_magnitude (same : x.magnitude = y.magnitude) :
    x.exponentField = y.exponentField ∧ x.fraction = y.fraction := by
  have exponent : x.exponentField = y.exponentField :=
    Nat.le_antisymm (exponentField_le same) (exponentField_le same.symm)
  have significand : x.significand = y.significand := by
    rw [magnitude_eq, magnitude_eq, place, place, exponent] at same
    exact Nat.eq_of_mul_eq_mul_right (Nat.two_pow_pos _) same
  rw [significand_eq, significand_eq, exponent] at significand
  exact ⟨exponent, Nat.add_left_cancel significand⟩

theorem negative_of_units (same : x.units = y.units) (some : x.units ≠ 0) :
    x.negative = y.negative := by
  have magnitude : x.magnitude = y.magnitude := by rw [← natAbs_units, ← natAbs_units, same]
  unfold units at same some
  cases sign : x.negative <;> cases sign' : y.negative <;>
    simp only [sign, sign', if_true, Bool.false_eq_true, if_false] at same some ⊢ <;> omega

theorem bits_eq (x : Binary64) : x.bits.toNat =
    (if x.negative then 2 ^ 63 else 0) + x.exponentField * 2 ^ 52 + x.fraction := by
  have bound := x.bits.toNat_lt
  simp only [negative, exponentField, fraction, Nat.shiftRight_eq_div_pow, Nat.one_shiftLeft,
    decide_eq_true_eq]
  split <;> omega

/-- Numbers of one value other than zero are the same number. -/
theorem eq_of_units (same : x.units = y.units) (some : x.units ≠ 0) : x = y := by
  have magnitude : x.magnitude = y.magnitude := by rw [← natAbs_units, ← natAbs_units, same]
  obtain ⟨exponent, fraction⟩ := fields_of_magnitude magnitude
  have bits : x.bits.toNat = y.bits.toNat := by
    rw [bits_eq, bits_eq, negative_of_units same some, exponent, fraction]
  cases x
  cases y
  congr 1
  exact UInt64.toNat_inj.mp bits

/-- A zero with a sign. It has the value of zero and other bits. -/
def negativeZero : Binary64 :=
  ⟨0x8000000000000000, by decide⟩

example : negativeZero.units = zero.units ∧ negativeZero ≠ zero := by
  decide +kernel

end ReactiveView.Binary64
