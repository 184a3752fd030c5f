import Mathlib.Algebra.Order.Field.Basic
import Mathlib.Tactic.Linarith
import Mathlib.Tactic.Ring
import ReactiveView.Proofs.Number.Bits
import ReactiveView.Store.Access

/-! Integers of 64 bits as binary64 numbers: each is taken for the number nearest to it, of two that
are equally near for the one with the even significand. Change detection compares numbers after
this, so it tells two numbers apart exactly when they are not taken for one. -/
namespace ReactiveView

namespace Binary64

/-- The real number, which is always rational. -/
def value (x : Binary64) : ℚ :=
  x.units / (unitsPerOne : ℤ)

/-- The number that stands for an exact value: none is nearer, and an equally near one with another
value yields to an even significand. -/
structure Rounds (v : ℚ) (x : Binary64) : Prop where
  nearest : ∀ y : Binary64, |x.value - v| ≤ |y.value - v|
  even : ∀ y : Binary64, |y.value - v| = |x.value - v| → y.value ≠ x.value → x.significand % 2 = 0

theorem unitsPerOne_pos : (0 : ℚ) < (unitsPerOne : ℤ) := by
  exact_mod_cast Number.unitsPerOne_pos

theorem unitsPerOne_eq_pow : ∃ places, places = 1074 ∧ unitsPerOne = 2 ^ places :=
  have ⟨places, count⟩ : ∃ places, places = 1074 := ⟨_, rfl⟩
  ⟨places, count, by rw [unitsPerOne, ← count, Nat.one_shiftLeft]⟩

theorem value_eq_iff (x y : Binary64) : x.value = y.value ↔ x.units = y.units := by
  rw [value, value, div_left_inj' unitsPerOne_pos.ne']
  exact Int.cast_inj

theorem rounds_self (x : Binary64) : Rounds x.value x where
  nearest y := by
    rw [sub_self, abs_zero]
    exact abs_nonneg _
  even y near differs := by
    rw [sub_self, abs_zero, abs_eq_zero, sub_eq_zero] at near
    exact (differs near).elim

theorem Rounds.value_eq {v : ℚ} {x y : Binary64} (rounds : Rounds v x) (same : y.value = v) :
    x.value = v := by
  have near := rounds.nearest y
  rw [same, sub_self, abs_zero] at near
  exact sub_eq_zero.mp (abs_nonpos_iff.mp near)

/-- How far a number is from an integer, counted in units. -/
def unitsFrom (n w : ℤ) : ℕ :=
  (w - n * unitsPerOne).natAbs

theorem abs_value_sub (x : Binary64) (n : ℤ) :
    |x.value - n| = unitsFrom n x.units / ((unitsPerOne : ℤ) : ℚ) := by
  have positive := unitsPerOne_pos
  have split : x.value - n = (x.units - n * (unitsPerOne : ℤ) : ℤ) / ((unitsPerOne : ℤ) : ℚ) := by
    rw [value, eq_div_iff positive.ne', sub_mul, div_mul_cancel₀ _ positive.ne']
    push_cast
    rfl
  rw [split, abs_div, abs_of_pos positive, unitsFrom, Nat.cast_natAbs]
  norm_cast

theorem rounds_of_units {n : ℤ} {x : Binary64}
    (nearest : ∀ y : Binary64, unitsFrom n x.units ≤ unitsFrom n y.units)
    (even : ∀ y : Binary64, unitsFrom n y.units = unitsFrom n x.units → y.units ≠ x.units →
      x.significand % 2 = 0) : Rounds n x where
  nearest y := by
    rw [abs_value_sub, abs_value_sub, div_le_div_iff_of_pos_right unitsPerOne_pos]
    exact_mod_cast nearest y
  even y near differs := by
    rw [abs_value_sub, abs_value_sub, div_left_inj' unitsPerOne_pos.ne'] at near
    exact even y (by exact_mod_cast near) fun same => differs ((value_eq_iff y x).mpr same)

section Grid

/-- A shift rounds by at most a half, and by a half only to an even number. -/
theorem roundShift_error (n shift : ℕ) :
    2 * ((roundShift n shift * 2 ^ shift : ℤ) - n).natAbs ≤ 2 ^ shift ∧
      (2 * ((roundShift n shift * 2 ^ shift : ℤ) - n).natAbs = 2 ^ shift →
        roundShift n shift % 2 = 0) := by
  have positive : 0 < 2 ^ shift := Nat.two_pow_pos shift
  have parts : 2 ^ shift * (n / 2 ^ shift) + n % 2 ^ shift = n := Nat.div_add_mod n (2 ^ shift)
  have small : n % 2 ^ shift < 2 ^ shift := Nat.mod_lt n positive
  have kept : ((n / 2 ^ shift : ℕ) * 2 ^ shift : ℤ) = (2 ^ shift * (n / 2 ^ shift) : ℕ) := by
    push_cast
    ring
  have carried : ((n / 2 ^ shift + 1 : ℕ) * 2 ^ shift : ℤ) =
      (2 ^ shift * (n / 2 ^ shift) : ℕ) + (2 ^ shift : ℕ) := by
    push_cast
    ring
  simp only [roundShift, Nat.one_shiftLeft, Bool.or_eq_true, Bool.and_eq_true, decide_eq_true_eq,
    beq_iff_eq]
  split
  · rw [carried]
    clear kept carried
    generalize 2 ^ shift * (n / 2 ^ shift) = whole at *
    omega
  · rw [kept]
    clear kept carried
    generalize 2 ^ shift * (n / 2 ^ shift) = whole at *
    omega

/-- A multiple that is at most half a step away is nearest, and another one is as near only if it is
half a step away. -/
theorem multiple_nearest {u : ℕ} {r n : ℤ} (half : 2 * (r * u - n).natAbs ≤ u) (z : ℤ) :
    (r * u - n).natAbs ≤ (z * u - n).natAbs ∧
      ((z * u - n).natAbs = (r * u - n).natAbs → z ≠ r → 2 * (r * u - n).natAbs = u) := by
  rcases lt_trichotomy z r with below | rfl | above
  · have apart : z * u + u ≤ r * u := by nlinarith
    omega
  · exact ⟨le_refl _, fun _ differs => (differs rfl).elim⟩
  · have apart : r * u + u ≤ z * u := by nlinarith
    omega

/-- Large numbers lie on a coarse grid. -/
theorem dvd_units_of_large {x : Binary64} {t : ℕ} (large : 2 ^ (52 + t) ≤ x.magnitude) :
    (2 ^ t : ℤ) ∣ x.units := by
  have bound : 2 ^ (52 + t) < 2 ^ (53 + x.place) := by
    calc 2 ^ (52 + t) ≤ x.significand * 2 ^ x.place := by
          rw [← Nat.shiftLeft_eq]
          exact large
      _ < 2 ^ 53 * 2 ^ x.place := Nat.mul_lt_mul_of_pos_right x.significand_lt (Nat.two_pow_pos _)
      _ = 2 ^ (53 + x.place) := (Nat.pow_add 2 53 x.place).symm
  have coarse : t ≤ x.place := by
    have := (Nat.pow_lt_pow_iff_right (by decide : 1 < 2)).mp bound
    omega
  have divides : 2 ^ t ∣ x.magnitude := by
    rw [magnitude, Nat.shiftLeft_eq]
    exact Dvd.dvd.mul_left (Nat.pow_dvd_pow 2 coarse) _
  rw [← Int.dvd_natAbs, natAbs_units]
  exact_mod_cast divides

end Grid

/-- The bits of an integer of more than 53 bits are those of its rounded significand. -/
theorem magnitudeBits_rounded {n : ℕ} (large : 2 ^ 53 ≤ n) (bound : n ≤ 2 ^ 64) :
    ∃ place rest, place < 2046 ∧ rest < 2 ^ 52 ∧
      magnitudeBits n = (place + 1) * 2 ^ 52 + rest ∧
      (2 ^ 52 + rest) * 2 ^ place =
        roundShift n (n.log2 - 52) * 2 ^ (n.log2 - 52) * unitsPerOne ∧
      (roundShift n (n.log2 - 52) % 2 = 0 → (2 ^ 52 + rest) % 2 = 0) := by
  have positive : n ≠ 0 := by omega
  have lower := Nat.log2_self_le positive
  have upper := Nat.lt_log2_self (n := n)
  have long : 53 ≤ n.log2 := (Nat.le_log2 positive).mpr large
  have short : n.log2 ≤ 64 := by
    refine Nat.le_of_lt_succ ((Nat.log2_lt positive).mpr ?_)
    omega
  generalize length : n.log2 = k at *
  obtain ⟨shift, rfl⟩ : ∃ shift, k = 52 + shift := ⟨k - 52, by omega⟩
  have bits : magnitudeBits n =
      (1023 + (52 + shift)) * 2 ^ 52 + (roundShift n shift - 2 ^ 52) := by
    rw [magnitudeBits, if_neg positive, length, if_neg (by omega), Nat.shiftLeft_eq,
      Nat.one_shiftLeft, Nat.add_sub_cancel_left]
  rw [Nat.add_sub_cancel_left]
  obtain ⟨places, count, scale⟩ := unitsPerOne_eq_pow
  have filled : 2 ^ 52 ≤ n / 2 ^ shift := by
    rw [Nat.le_div_iff_mul_le (Nat.two_pow_pos shift), ← Nat.pow_add]
    exact lower
  have fits : n / 2 ^ shift < 2 ^ 53 := by
    rw [Nat.div_lt_iff_lt_mul (Nat.two_pow_pos shift), ← Nat.pow_add]
    exact lt_of_lt_of_eq upper (congrArg (2 ^ ·) (by omega))
  have range : 2 ^ 52 ≤ roundShift n shift ∧ roundShift n shift ≤ 2 ^ 53 := by
    simp only [roundShift, Nat.one_shiftLeft]
    split <;> omega
  obtain full | room := Nat.eq_or_lt_of_le range.2
  · -- The significand carries into the exponent.
    refine ⟨1023 + (52 + shift), 0, by omega, by decide, ?_, ?_, fun _ => rfl⟩
    · rw [bits, full]
      omega
    · rw [full, scale, Nat.add_zero, ← Nat.pow_add, ← Nat.pow_add, ← Nat.pow_add]
      exact congrArg (2 ^ ·) (by omega)
  · refine ⟨1022 + (52 + shift), roundShift n shift - 2 ^ 52, by omega, by omega, ?_, ?_, ?_⟩
    · rw [bits]
      omega
    · rw [Nat.add_sub_cancel' range.1, scale, Nat.mul_assoc, ← Nat.pow_add]
      exact congrArg (roundShift n shift * 2 ^ ·) (by omega)
    · rw [Nat.add_sub_cancel' range.1]
      exact id

/-- What is nearest to a long integer. A number below the power of two where the integer starts is
further away than that power, and above it all numbers lie on one grid. -/
theorem rounded_nearest {n : ℕ} (large : 2 ^ 53 ≤ n) {w : ℤ}
    (grid : ∀ t : ℕ, (2 ^ (52 + t) : ℕ) ≤ w → ((2 ^ t : ℕ) : ℤ) ∣ w) :
    let r : ℤ := roundShift n (n.log2 - 52) * (2 ^ (n.log2 - 52) : ℕ) * unitsPerOne
    unitsFrom n r ≤ unitsFrom n w ∧
      (unitsFrom n w = unitsFrom n r → w ≠ r → roundShift n (n.log2 - 52) % 2 = 0) := by
  intro r
  have positive : n ≠ 0 := by omega
  have long : 53 ≤ n.log2 := (Nat.le_log2 positive).mpr large
  have lower : 2 ^ n.log2 ≤ n := Nat.log2_self_le positive
  obtain ⟨shift, top⟩ : ∃ shift, n.log2 = 52 + shift := ⟨n.log2 - 52, by omega⟩
  have isShift : n.log2 - 52 = shift := by omega
  rw [top, Nat.pow_add] at lower
  simp only [r, isShift]
  obtain ⟨places, -, scale⟩ := unitsPerOne_eq_pow
  have units : 0 < unitsPerOne := scale ▸ Nat.two_pow_pos places
  have power : 2 ^ (shift + places) = 2 ^ shift * unitsPerOne := by rw [scale, Nat.pow_add]
  obtain ⟨half, even⟩ := roundShift_error n shift
  have distance : ∀ a : ℤ, unitsFrom n (a * (2 ^ shift : ℕ) * unitsPerOne) =
      (a * (2 ^ shift : ℕ) - n).natAbs * unitsPerOne := by
    intro a
    rw [unitsFrom, ← sub_mul, Int.natAbs_mul, Int.natAbs_natCast]
  by_cases coarse : ((2 ^ (52 + (shift + places)) : ℕ) : ℤ) ≤ w
  · obtain ⟨z, rfl⟩ := grid _ coarse
    have same : ((2 ^ (shift + places) : ℕ) * z : ℤ) = z * (2 ^ shift : ℕ) * unitsPerOne := by
      rw [power]
      push_cast
      ring
    obtain ⟨nearest, tie⟩ := multiple_nearest half z
    rw [same, distance, distance]
    refine ⟨Nat.mul_le_mul_right _ nearest, fun near differs => even ?_⟩
    refine tie (Nat.eq_of_mul_eq_mul_right units near) fun same => differs ?_
    rw [same]
  · -- The power of two itself is a multiple, and lies between.
    obtain ⟨nearest, -⟩ := multiple_nearest half (2 ^ 52)
    have nearer := Nat.mul_le_mul_right unitsPerOne nearest
    rw [← distance, ← distance] at nearer
    have start : ((2 ^ (52 + (shift + places)) : ℕ) : ℤ) =
        2 ^ 52 * (2 ^ shift : ℕ) * unitsPerOne := by
      rw [Nat.pow_add, power]
      push_cast
      ring
    have below : (2 ^ 52 * (2 ^ shift : ℕ) * unitsPerOne : ℤ) ≤ n * unitsPerOne := by
      exact_mod_cast Nat.mul_le_mul_right unitsPerOne lower
    rw [start] at coarse
    unfold unitsFrom at nearer ⊢
    generalize (2 ^ 52 * (2 ^ shift : ℕ) * unitsPerOne : ℤ) = start at *
    generalize (n * unitsPerOne : ℤ) = exact at *
    omega

theorem value_ofInt {n : ℤ} (small : n.natAbs ≤ 2 ^ 53) : (ofInt n).value = n := by
  rw [value, units_ofInt small]
  push_cast
  exact mul_div_cancel_right₀ _ (by exact_mod_cast unitsPerOne_pos.ne')

/-- A long integer is taken for its rounded significand, with its own sign. -/
theorem units_ofInt_of_large {n : ℤ} (large : 2 ^ 53 ≤ n.natAbs) (bound : n.natAbs ≤ 2 ^ 64) :
    ∃ σ : ℤ, (σ = 1 ∨ σ = -1) ∧ (n.natAbs : ℤ) = σ * n ∧
      σ * (ofInt n).units = roundShift n.natAbs (n.natAbs.log2 - 52) *
        (2 ^ (n.natAbs.log2 - 52) : ℕ) * unitsPerOne ∧
      (roundShift n.natAbs (n.natAbs.log2 - 52) % 2 = 0 → (ofInt n).significand % 2 = 0) := by
  obtain ⟨place, rest, place_small, rest_small, bits, rounded, even⟩ :=
    magnitudeBits_rounded large bound
  obtain ⟨significand, units⟩ := ofInt_of_magnitudeBits place_small rest_small bits
  rw [rounded] at units
  rw [← significand] at even
  by_cases negative : n < 0
  · exact ⟨-1, .inr rfl, by omega, by simp [units, negative], even⟩
  · exact ⟨1, .inl rfl, by omega, by simp [units, negative], even⟩

/-- Any integer of at most 64 bits is taken for the number nearest to it. -/
theorem rounds_ofInt {n : ℤ} (bound : n.natAbs ≤ 2 ^ 64) : Rounds n (ofInt n) := by
  obtain small | large := Nat.lt_or_ge n.natAbs (2 ^ 53)
  · exact value_ofInt small.le ▸ rounds_self (ofInt n)
  · obtain ⟨σ, unit, sign, rounded, even⟩ := units_ofInt_of_large large bound
    -- With the sign taken off, the distances are those of a positive integer.
    have distance : ∀ w : ℤ, unitsFrom n.natAbs (σ * w) = unitsFrom n w := by
      intro w
      rw [unitsFrom, sign, mul_assoc, ← mul_sub, Int.natAbs_mul, unitsFrom]
      rcases unit with rfl | rfl <;> simp
    have near : ∀ y : Binary64, _ := fun y =>
      rounded_nearest large (w := σ * y.units) fun t beyond => by
        have beyond : 2 ^ (52 + t) ≤ y.units.natAbs := by rcases unit with rfl | rfl <;> omega
        rw [natAbs_units] at beyond
        exact Dvd.dvd.mul_left (by exact_mod_cast dvd_units_of_large beyond) σ
    simp only [← rounded, distance] at near
    refine rounds_of_units (fun y => (near y).1) fun y tie differs => even ((near y).2 tie ?_)
    rcases unit with rfl | rfl <;> omega

end Binary64

namespace Number

/-- The real number that is denoted. -/
def value : Number → ℚ
  | .whole n => n.val
  | .double x => x.value

theorem rounds_toBinary64 (n : Number) : Binary64.Rounds n.value n.toBinary64 := by
  cases n with
  | whole n =>
    have lower := n.lower
    have upper := n.upper
    exact Binary64.rounds_ofInt (by omega)
  | double x => exact Binary64.rounds_self x

theorem sameValue_iff (x y : Number) :
    x.sameValue y = true ↔ x.toBinary64.value = y.toBinary64.value := by
  rw [sameValue, Binary64.sameValue, beq_iff_eq, Binary64.value_eq_iff]

/-- A number that is held without rounding stands for itself. -/
theorem value_toBinary64 {n : Number} {a : Binary64} (held : a.value = n.value) :
    n.toBinary64.value = n.value :=
  n.rounds_toBinary64.value_eq held

theorem sameValue_of_value {x y : Number} (same : x.value = y.value) : x.sameValue y = true := by
  rw [sameValue_iff]
  cases x with
  | whole m =>
    cases y with
    | whole n =>
      have equal : (m.val : ℚ) = n.val := same
      have equal : m.val = n.val := by exact_mod_cast equal
      rw [toBinary64, toBinary64, equal]
    | double b => exact (value_toBinary64 same.symm).trans same
  | double a => exact same.trans (value_toBinary64 same).symm

end Number

/-- Each number stands for the binary64 number nearest to it, and two numbers are taken for one
exactly when these have one value. So one value is never taken for two, and two values that are
held without rounding are never taken for one. A number is written over another one unless they are
taken for one. -/
theorem numbers_told_apart {γ : Type} (x y : Number) :
    Binary64.Rounds x.value x.toBinary64 ∧ Binary64.Rounds y.value y.toBinary64 ∧
    ((Value.number x).strictEq (.number y) = true ↔ x.toBinary64.value = y.toBinary64.value) ∧
    (x.value = y.value → (Value.number x).strictEq (.number y) = true) ∧
    (∀ a b : Binary64, a.value = x.value → b.value = y.value →
      (Value.number x).strictEq (.number y) = true → x.value = y.value) ∧
    ∀ (s : Store γ) (parent id : CellId) (keys : List (String × CellId)) (key : String),
      s.content parent = .object keys → keys.lookup key = some id →
      s.content id = .leaf (.number x) →
      s.write (.object parent) key (.number y) =
        if x.toBinary64.value = y.toBinary64.value then (.done .unchanged, s)
        else (.cell id, s.setContent id (.leaf (.number y))) := by
  have equal : (Value.number x).strictEq (.number y) = x.sameValue y := by
    rw [Value.strictEq]
  rw [equal]
  refine ⟨x.rounds_toBinary64, y.rounds_toBinary64, x.sameValue_iff y, Number.sameValue_of_value,
    fun a b held held' same => ?_, fun s parent id keys key object member leaf => ?_⟩
  · rw [Number.sameValue_iff, Number.value_toBinary64 held, Number.value_toBinary64 held'] at same
    exact same
  · have written : s.write (.object parent) key (.number y) = s.writeCell id (.number y) := by
      simp only [Store.write, object, member]
    rw [written, Store.writeCell, leaf]
    simp only [Value.isScalar, Bool.true_and, equal, Number.sameValue_iff]

/-- A counter beyond 2^53 that is written again: the next number but one is another number. -/
theorem mileage_told_apart :
    let s : Store Empty := .ofValue (.object [("km", .number (.ofNat 9007199254740993))])
    s.content s.root = .object [("km", 0)] ∧
    s.content 0 = .leaf (.number (.ofNat 9007199254740993)) ∧
    s.write (.object s.root) "km" (.number (.ofNat 9007199254740995)) =
      (.cell 0, s.setContent 0 (.leaf (.number (.ofNat 9007199254740995)))) ∧
    (Number.ofNat 5).value = (Number.double (.ofInt 5)).value ∧
    (Value.number (.ofNat 5)).strictEq (.number (.double (.ofInt 5))) = true ∧
    ((Value.number (.ofNat 5)).strictEq (.number (.ofNat 6)) = true →
      (Number.ofNat 5).value = (Number.ofNat 6).value) := by
  intro s
  have five : (Binary64.ofInt 5).value = (Number.ofNat 5).value := Binary64.value_ofInt (by decide)
  have six : (Binary64.ofInt 6).value = (Number.ofNat 6).value := Binary64.value_ofInt (by decide)
  have apart : (Number.ofNat 9007199254740993).toBinary64.value ≠
      (Number.ofNat 9007199254740995).toBinary64.value := by
    rw [Ne, Binary64.value_eq_iff]
    decide +kernel
  have written := (numbers_told_apart (.ofNat 9007199254740993) (.ofNat 9007199254740995)).2.2.2.2.2
    s s.root 0 [("km", 0)] "km" rfl rfl rfl
  rw [if_neg apart] at written
  exact ⟨rfl, rfl, written, five.symm,
    (numbers_told_apart (γ := Empty) (.ofNat 5) (.double (.ofInt 5))).2.2.2.1 five.symm,
    (numbers_told_apart (γ := Empty) (.ofNat 5) (.ofNat 6)).2.2.2.2.1 _ _ five six⟩

/-- Rounding takes two numbers for one, and the write of the one over the other is dropped. -/
theorem neighbours_taken_for_one :
    let x := Number.ofNat 9007199254740992
    let y := Number.ofNat 9007199254740993
    let s : Store Empty := .ofValue (.object [("km", .number x)])
    (Value.number x).strictEq (.number y) = true ∧ x.value ≠ y.value ∧
    s.write (.object s.root) "km" (.number y) = (.done .unchanged, s) := by
  have same : (Number.ofNat 9007199254740992).sameValue (.ofNat 9007199254740993) = true := by
    decide +kernel
  intro x y s
  have equal : (Value.number x).strictEq (.number y) = true := by
    rw [Value.strictEq]
    exact same
  refine ⟨equal, ?_, ?_⟩
  · show ((9007199254740992 : ℤ) : ℚ) ≠ ((9007199254740993 : ℤ) : ℚ)
    norm_num
  · have written : s.write (.object s.root) "km" (.number y) = s.writeCell 0 (.number y) := rfl
    rw [written, Store.writeCell, show s.content 0 = .leaf (.number x) from rfl]
    simp only [Value.isScalar, equal, Bool.and_self, if_true]

end ReactiveView
