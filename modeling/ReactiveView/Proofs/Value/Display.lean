import ReactiveView.Proofs.Number.Bits
import ReactiveView.Proofs.Value.Equality
import ReactiveView.Value.Location

/-! What of a value is seen. Values that change detection takes for equal are shown alike, unless an
integer in them is rounded before it is compared. -/
namespace ReactiveView

namespace Number

/-- A number that is not rounded to be compared: a binary64 number or an integer up to a
magnitude of 2^53. -/
def Unrounded : Number → Prop
  | .whole n => n.val.natAbs ≤ 2 ^ 53
  | .double _ => True

instance : (n : Number) → Decidable n.Unrounded
  | .whole n => inferInstanceAs (Decidable (n.val.natAbs ≤ 2 ^ 53))
  | .double _ => .isTrue trivial

theorem Exact.unrounded {n : Number} (exact : n.Exact) : n.Unrounded := by
  cases n with
  | whole n => exact exact.small
  | double x => trivial

theorem exact_whole {n : Whole} (small : n.val.natAbs ≤ 2 ^ 53) : (whole n).Exact where
  isWhole _ same := nomatch same
  small := small

theorem exact_of_units {n : Int} {x : Binary64} (small : n.natAbs ≤ 2 ^ 53)
    (units : x.units = n * (Binary64.unitsPerOne : Int)) : (double x).Exact where
  isWhole y same := by
    obtain rfl := Number.double.inj same
    have magnitude : x.magnitude = n.natAbs * Binary64.unitsPerOne := by
      rw [← x.natAbs_units, units, Int.natAbs_mul, Int.natAbs_natCast]
    rw [Binary64.isWhole, magnitude, Nat.mul_mod_left, beq_self_eq_true]
  small := by
    have integer : (double x).integer = n := by
      rw [integer, Binary64.truncate, units, Int.mul_tdiv_cancel _ (Int.ne_of_gt unitsPerOne_pos)]
    rwa [integer]

/-- What is taken for an exact integer is one. -/
theorem Exact.of_sameValue {m n : Number} (exact : m.Exact) (unrounded : n.Unrounded)
    (same : m.sameValue n = true) : n.Exact := by
  cases n with
  | whole n => exact exact_whole unrounded
  | double x => exact exact_of_units exact.small ((units_of_sameValue same).symm.trans exact.units)

theorem sameValue_comm (m n : Number) : m.sameValue n = n.sameValue m :=
  BEq.comm

/-- Numbers that compare as equal without rounding are shown alike. The two zeros are shown as the
integer, and other binary64 numbers of one value are the same. -/
theorem display_eq {m n : Number} (unrounded : m.Unrounded) (unrounded' : n.Unrounded)
    (same : m.sameValue n = true) : m.display = n.display := by
  have of_exact : ∀ {m n : Number}, m.Exact → n.Unrounded → m.sameValue n = true →
      m.display = n.display := fun exact unrounded same =>
    exact.display_eq (exact.of_sameValue unrounded same) same
  cases m with
  | whole m => exact of_exact (exact_whole unrounded) unrounded' same
  | double x =>
    cases n with
    | whole n => exact (of_exact (exact_whole unrounded') unrounded (sameValue_comm .. ▸ same)).symm
    | double y =>
      by_cases zero : x.units = 0
      · have exact : (double x).Exact :=
          exact_of_units (n := 0) (Nat.zero_le _) (by rw [zero, Int.zero_mul])
        exact of_exact exact unrounded' same
      · have same : x = y := Binary64.eq_of_units (units_of_sameValue same) zero
        rw [same]

end Number

namespace Value

mutual

/-- All numbers in the value are integers that are held exactly. -/
def Exact : Value → Prop
  | .number n => n.Exact
  | .array items => ExactItems items
  | .object fields => ExactFields fields
  | .null | .bool _ | .string _ => True

def ExactItems : List Value → Prop
  | [] => True
  | v :: rest => Exact v ∧ ExactItems rest

def ExactFields : List (String × Value) → Prop
  | [] => True
  | (_, v) :: rest => Exact v ∧ ExactFields rest

end

mutual

/-- No integer in the value is rounded to be compared. -/
def Unrounded : Value → Prop
  | .number n => n.Unrounded
  | .array items => UnroundedItems items
  | .object fields => UnroundedFields fields
  | .null | .bool _ | .string _ => True

def UnroundedItems : List Value → Prop
  | [] => True
  | v :: rest => Unrounded v ∧ UnroundedItems rest

def UnroundedFields : List (String × Value) → Prop
  | [] => True
  | (_, v) :: rest => Unrounded v ∧ UnroundedFields rest

end

mutual

def decidableUnrounded : (v : Value) → Decidable v.Unrounded
  | .number n => inferInstanceAs (Decidable n.Unrounded)
  | .array items => decidableUnroundedItems items
  | .object fields => decidableUnroundedFields fields
  | .null | .bool _ | .string _ => .isTrue trivial

def decidableUnroundedItems : (items : List Value) → Decidable (UnroundedItems items)
  | [] => .isTrue trivial
  | v :: rest =>
    have := decidableUnrounded v
    have := decidableUnroundedItems rest
    inferInstanceAs (Decidable (Unrounded v ∧ UnroundedItems rest))

def decidableUnroundedFields : (fields : List (String × Value)) → Decidable (UnroundedFields fields)
  | [] => .isTrue trivial
  | (_, v) :: rest =>
    have := decidableUnrounded v
    have := decidableUnroundedFields rest
    inferInstanceAs (Decidable (Unrounded v ∧ UnroundedFields rest))

end

instance (v : Value) : Decidable v.Unrounded :=
  decidableUnrounded v

mutual

theorem Exact.unrounded : ∀ {v : Value}, v.Exact → v.Unrounded
  | .number _, exact => Number.Exact.unrounded exact
  | .array _, exact => ExactItems.unrounded exact
  | .object _, exact => ExactFields.unrounded exact
  | .null, _ | .bool _, _ | .string _, _ => trivial

theorem ExactItems.unrounded : ∀ {items : List Value}, ExactItems items → UnroundedItems items
  | [], _ => trivial
  | _ :: _, exact => ⟨Exact.unrounded exact.1, ExactItems.unrounded exact.2⟩

theorem ExactFields.unrounded :
    ∀ {fields : List (String × Value)}, ExactFields fields → UnroundedFields fields
  | [], _ => trivial
  | (_, _) :: _, exact => ⟨Exact.unrounded exact.1, ExactFields.unrounded exact.2⟩

end

/-- Both values are shown alike, in running text and in a property. -/
structure Alike (v w : Value) : Prop where
  display : v.display = w.display
  propertyText : v.propertyText = w.propertyText

theorem Alike.refl (v : Value) : Alike v v :=
  ⟨rfl, rfl⟩

theorem Alike.symm {v w : Value} (alike : Alike v w) : Alike w v :=
  ⟨alike.display.symm, alike.propertyText.symm⟩

theorem Alike.trans {u v w : Value} (first : Alike u v) (second : Alike v w) : Alike u w :=
  ⟨first.display.trans second.display, first.propertyText.trans second.propertyText⟩

theorem displayItems_cons (v : Value) (rest : List Value) :
    displayItems (v :: rest) = v.propertyText :: displayItems rest := by
  cases v <;> simp only [displayItems, propertyText]

mutual

theorem alike_of_strictEq (v w : Value) (unrounded : v.Unrounded) (unrounded' : w.Unrounded)
    (same : v.strictEq w = true) : Alike v w := by
  obtain rfl | ⟨x, y, rfl, rfl, same⟩ | ⟨xs, ys, rfl, rfl, same⟩ | ⟨fs, gs, rfl, rfl, -⟩ :=
    kind_of_strictEq same
  · exact Alike.refl v
  · have display := Number.display_eq unrounded unrounded' same
    exact ⟨display, display⟩
  · have items := displayItems_of_strictEq xs ys unrounded unrounded' same
    have display : (Value.array xs).display = (Value.array ys).display := by
      simp only [Value.display, items]
    exact ⟨display, display⟩
  · exact ⟨rfl, rfl⟩

theorem displayItems_of_strictEq : ∀ xs ys : List Value, UnroundedItems xs → UnroundedItems ys →
    strictEqItems xs ys = true → displayItems xs = displayItems ys
  | [], [], _, _, _ => rfl
  | x :: xs, y :: ys, unrounded, unrounded', same => by
    simp only [strictEqItems, Bool.and_eq_true] at same
    have first := alike_of_strictEq x y unrounded.1 unrounded'.1 same.1
    rw [displayItems_cons, displayItems_cons, first.propertyText,
      displayItems_of_strictEq xs ys unrounded.2 unrounded'.2 same.2]

end

/-- An object is shown as one, whatever is in it. -/
def Legible (v : Value) : Prop :=
  (∃ fields, v = .object fields) ∨ v.Exact

theorem Legible.alike {v w : Value} (legible : v.Legible) (legible' : w.Legible)
    (same : v.strictEq w = true) : Alike v w := by
  rcases legible with ⟨fields, rfl⟩ | exact
  · cases w with
    | object _ => exact ⟨rfl, rfl⟩
    | _ => simp [strictEq] at same
  · rcases legible' with ⟨fields, rfl⟩ | exact'
    · cases v with
      | object _ => exact ⟨rfl, rfl⟩
      | _ => simp [strictEq] at same
    · exact alike_of_strictEq v w exact.unrounded exact'.unrounded same

theorem exact_of_getElem? {items : List Value} {i : Nat} {v : Value} (exact : ExactItems items)
    (found : items[i]? = some v) : v.Exact := by
  induction items generalizing i with
  | nil => simp at found
  | cons first rest ih =>
    cases i with
    | zero =>
      obtain rfl := Option.some.inj found
      exact exact.1
    | succ i => exact ih exact.2 found

theorem exact_of_lookup {fields : List (String × Value)} {key : String} {v : Value}
    (exact : ExactFields fields) (found : fields.lookup key = some v) : v.Exact := by
  induction fields with
  | nil => simp at found
  | cons first rest ih =>
    obtain ⟨k, w⟩ := first
    rw [List.lookup_cons] at found
    split at found
    · obtain rfl := Option.some.inj found
      exact exact.1
    · exact ih exact.2 found

/-- What is inside a value is as exact as the value. -/
theorem Exact.at? {v w : Value} (exact : v.Exact) {steps : List String}
    (found : v.at? steps = some w) : w.Exact := by
  induction steps generalizing v with
  | nil => exact Option.some.inj found ▸ exact
  | cons key rest ih =>
    obtain ⟨inner, step, further⟩ := Option.bind_eq_some_iff.mp found
    refine ih ?_ further
    cases v with
    | object fields => exact exact_of_lookup exact step
    | array items =>
      obtain ⟨i, -, item⟩ := Option.bind_eq_some_iff.mp step
      exact exact_of_getElem? exact item
    | _ => cases step

/-- What change detection takes for the same is shown the same, in running text and in a property,
so that an effect that is skipped leaves the right text on display. Whole doubles may stand for
integers, and zeros differ in sign, at any depth. -/
theorem shown_alike {v w : Value} (unrounded : v.Unrounded) (unrounded' : w.Unrounded)
    (same : v.strictEq w = true) : v.display = w.display ∧ v.propertyText = w.propertyText := by
  have alike := alike_of_strictEq v w unrounded unrounded' same
  exact ⟨alike.display, alike.propertyText⟩

/-- The number nearest to a third. -/
def oneThird : Binary64 := ⟨0x3fd5555555555555, by decide⟩

/-- Readings of a gauge, taken twice. -/
def readings : Value :=
  .array [.number (.ofNat 5), .null, .array [.number (.double .negativeZero), .string "mm"],
    .number (.double oneThird), .object [("max", .number (.ofNat 9007199254740992))]]

def readingsAgain : Value :=
  .array [.number (.double (.ofInt 5)), .null, .array [.number (.ofNat 0), .string "mm"],
    .number (.double oneThird), .object [("max", .number (.double (.ofInt 9007199254740992)))]]

theorem readings_shown_alike :
    readings.strictEq readingsAgain = true ∧ readings.display = readingsAgain.display ∧
      readingsAgain.display = "5,,0,mm,0.3333333333333333,[object Object]" := by
  have same : readings.strictEq readingsAgain = true := by decide +kernel
  have unrounded : readings.Unrounded := by decide +kernel
  have unrounded' : readingsAgain.Unrounded := by decide +kernel
  exact ⟨same, (shown_alike unrounded unrounded' same).1, by decide +kernel⟩

/-- Beyond the bound two integers may be taken for one and shown apart. -/
example : (Value.number (.ofNat 9007199254740992)).strictEq (.number (.ofNat 9007199254740993)) =
    true ∧
    (Value.number (.ofNat 9007199254740992)).display ≠
      (Value.number (.ofNat 9007199254740993)).display := by
  decide +kernel

end Value
end ReactiveView
