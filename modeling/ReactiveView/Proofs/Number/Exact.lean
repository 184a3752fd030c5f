import Mathlib.Tactic.Ring
import ReactiveView.Number.Basic

/-! Integers that binary64 numbers hold exactly. Up to a magnitude of 2^53 rounding changes nothing,
so integers that compare as equal are equal, however they are kept, and are shown alike. -/
namespace ReactiveView

namespace Binary64

/-- The bits of a normal number, given by its sign, its place and the rest of its significand. -/
structure Encodes (negative : Bool) (place rest : Nat) (bits : Nat) : Prop where
  place_small : place < 2046
  rest_small : rest < 2 ^ 52
  bits_eq : bits = (if negative then 2 ^ 63 else 0) + (place + 1) * 2 ^ 52 + rest

theorem Encodes.bits_lt {negative : Bool} {place rest bits : Nat}
    (encodes : Encodes negative place rest bits) : bits < 2 ^ 64 := by
  obtain ⟨place_small, rest_small, rfl⟩ := encodes
  split <;> omega

/-- The fields of a word are what the word was put together from. -/
theorem Encodes.units {negative : Bool} {place rest bits : Nat}
    (encodes : Encodes negative place rest bits) :
    ∃ x, ofBits? (UInt64.ofNat bits) = some x ∧ x.significand = 2 ^ 52 + rest ∧
      x.units = (if negative then -1 else 1) * ((2 ^ 52 + rest) * 2 ^ place : Nat) := by
  have whole : (UInt64.ofNat bits).toNat = bits := by
    rw [UInt64.toNat_ofNat']
    exact Nat.mod_eq_of_lt encodes.bits_lt
  obtain ⟨place_small, rest_small, same⟩ := encodes
  have exponent : (bits >>> 52) % 2048 = place + 1 := by
    rw [Nat.shiftRight_eq_div_pow, same]
    split <;> omega
  have fraction : bits % 1 <<< 52 = rest := by
    rw [Nat.one_shiftLeft, same]
    split <;> omega
  have sign : (1 <<< 63 ≤ bits) ↔ negative = true := by
    rw [Nat.one_shiftLeft, same]
    cases negative <;> simp <;> omega
  have finite : ((UInt64.ofNat bits).toNat >>> 52) % 2048 < 2047 := by
    rw [whole, exponent]
    omega
  have significand : (Binary64.mk _ finite).significand = 2 ^ 52 + rest := by
    simp only [Binary64.significand, exponentField, whole, exponent, fraction]
    rw [if_neg (Nat.succ_ne_zero place), Nat.one_shiftLeft]
  refine ⟨⟨_, finite⟩, by rw [ofBits?, dif_pos finite], significand, ?_⟩
  have magnitude : (Binary64.mk _ finite).magnitude = (2 ^ 52 + rest) * 2 ^ place := by
    rw [Binary64.magnitude, significand, Nat.shiftLeft_eq]
    simp only [Binary64.place, exponentField, whole, exponent, Nat.add_sub_cancel]
  simp only [Binary64.units, Binary64.negative, magnitude, whole, sign]
  cases negative <;> simp

/-- A number of at most 53 bits fills the significand once it is shifted to its place. -/
theorem magnitudeBits_encodes {n : Nat} (positive : n ≠ 0) (small : n ≤ 2 ^ 53) :
    ∃ place rest, place < 2046 ∧ rest < 2 ^ 52 ∧
      magnitudeBits n = (place + 1) * 2 ^ 52 + rest ∧
      (2 ^ 52 + rest) * 2 ^ place = n * unitsPerOne := by
  obtain rfl | below := Nat.eq_or_lt_of_le small
  · exact ⟨1075, 0, by decide, by decide, by decide +kernel, by decide +kernel⟩
  · have lower := Nat.log2_self_le positive
    have upper := Nat.lt_log2_self (n := n)
    have short : n.log2 ≤ 52 := by
      have := (Nat.log2_lt positive).mpr below
      omega
    have shifted : n <<< (52 - n.log2) = n * 2 ^ (52 - n.log2) := Nat.shiftLeft_eq _ _
    have filled : 2 ^ 52 ≤ n * 2 ^ (52 - n.log2) := by
      calc 2 ^ 52 = 2 ^ n.log2 * 2 ^ (52 - n.log2) := by rw [← Nat.pow_add]; congr 1; omega
        _ ≤ n * 2 ^ (52 - n.log2) := Nat.mul_le_mul_right _ lower
    have bounded : n * 2 ^ (52 - n.log2) < 2 ^ 53 := by
      calc n * 2 ^ (52 - n.log2) < 2 ^ (n.log2 + 1) * 2 ^ (52 - n.log2) :=
            Nat.mul_lt_mul_of_pos_right upper (Nat.two_pow_pos _)
        _ = 2 ^ 53 := by rw [← Nat.pow_add]; congr 1; omega
    refine ⟨1022 + n.log2, n * 2 ^ (52 - n.log2) - 2 ^ 52, by omega, by omega, ?_, ?_⟩
    · rw [magnitudeBits, if_neg positive, if_pos short, shifted, Nat.shiftLeft_eq,
        Nat.one_shiftLeft]
      omega
    · rw [Nat.add_sub_cancel' filled, Nat.mul_assoc, ← Nat.pow_add, unitsPerOne, Nat.one_shiftLeft]
      congr 2
      omega

/-- The bits of a magnitude and the sign make up the number. -/
theorem ofInt_of_magnitudeBits {n : Int} {place rest : Nat} (place_small : place < 2046)
    (rest_small : rest < 2 ^ 52) (bits : magnitudeBits n.natAbs = (place + 1) * 2 ^ 52 + rest) :
    (ofInt n).significand = 2 ^ 52 + rest ∧
      (ofInt n).units = (if n < 0 then -1 else 1) * ((2 ^ 52 + rest) * 2 ^ place : Nat) := by
  have encodes : Encodes (decide (n < 0)) place rest
      ((if n < 0 then 1 <<< 63 else 0) + magnitudeBits n.natAbs) := by
    refine ⟨place_small, rest_small, ?_⟩
    rw [bits, Nat.one_shiftLeft]
    simp only [decide_eq_true_eq, Nat.add_assoc]
  obtain ⟨x, found, significand, units⟩ := encodes.units
  have read : ofInt n = x := by
    simp only [ofInt, found, Option.getD_some]
  rw [read]
  exact ⟨significand, by simpa only [decide_eq_true_eq] using units⟩

/-- An integer of at most 53 bits is not rounded. -/
theorem units_ofInt {n : Int} (small : n.natAbs ≤ 2 ^ 53) :
    (ofInt n).units = n * (unitsPerOne : Int) := by
  by_cases none : n = 0
  · subst none
    decide +kernel
  · obtain ⟨place, rest, place_small, rest_small, bits, value⟩ :=
      magnitudeBits_encodes (Int.natAbs_ne_zero.mpr none) small
    obtain ⟨-, units⟩ := ofInt_of_magnitudeBits place_small rest_small bits
    rw [units, value, Nat.cast_mul]
    split <;> rw [← mul_assoc] <;> congr 1 <;> omega

end Binary64

namespace Number

/-- The integer that a number is, if it is one. -/
def integer (n : Number) : Int :=
  match n with
  | .whole n => n.val
  | .double x => x.truncate

/-- An integer that binary64 numbers hold without rounding. -/
structure Exact (n : Number) : Prop where
  isWhole : ∀ x, n = .double x → x.isWhole = true
  small : n.integer.natAbs ≤ 2 ^ 53

theorem Exact.units {n : Number} (exact : n.Exact) :
    n.toBinary64.units = n.integer * (Binary64.unitsPerOne : Int) := by
  cases n with
  | whole n => exact Binary64.units_ofInt exact.small
  | double x =>
    have divides : (Binary64.unitsPerOne : Int) ∣ x.units := by
      have whole := exact.isWhole x rfl
      simp only [Binary64.isWhole, beq_iff_eq] at whole
      have divides : (Binary64.unitsPerOne : Int) ∣ x.magnitude :=
        Int.natCast_dvd_natCast.mpr (Nat.dvd_of_mod_eq_zero whole)
      unfold Binary64.units
      split
      · exact Int.dvd_neg.mpr divides
      · exact divides
    exact (Int.tdiv_mul_cancel divides).symm

theorem unitsPerOne_pos : (0 : Int) < Binary64.unitsPerOne := by
  decide +kernel

theorem Exact.display {n : Number} (exact : n.Exact) : n.display = toString n.integer := by
  cases n with
  | whole n => rfl
  | double x =>
    have whole := exact.isWhole x rfl
    have below : x.magnitude < Nat.pow 10 21 * Binary64.unitsPerOne := by
      have units := exact.units
      have bound : x.magnitude = x.units.natAbs := by
        unfold Binary64.units
        split <;> simp
      rw [bound, show x.units = _ from units, Int.natAbs_mul, Int.natAbs_natCast]
      refine Nat.mul_lt_mul_of_pos_right ?_ (by exact_mod_cast unitsPerOne_pos)
      exact Nat.lt_of_le_of_lt exact.small (by decide)
    simp only [Number.display, whole, below, decide_true, Bool.and_self, if_true]
    rfl

theorem units_of_sameValue {m n : Number} (same : m.sameValue n = true) :
    m.toBinary64.units = n.toBinary64.units := by
  simpa only [sameValue, Binary64.sameValue, beq_iff_eq] using same

/-- Integers that compare as equal are shown alike. -/
theorem Exact.display_eq {m n : Number} (exact : m.Exact) (exact' : n.Exact)
    (same : m.sameValue n = true) : m.display = n.display := by
  have units := units_of_sameValue same
  rw [exact.units, exact'.units] at units
  have equal : m.integer = n.integer :=
    Int.eq_of_mul_eq_mul_right (Int.ne_of_gt unitsPerOne_pos) units
  rw [exact.display, exact'.display, equal]

end Number
end ReactiveView
