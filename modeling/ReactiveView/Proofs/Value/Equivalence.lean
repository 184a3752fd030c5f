import Mathlib.Data.List.Perm.Subperm
import ReactiveView.Proofs.Number.Bits
import ReactiveView.Proofs.Value.Equality
import ReactiveView.Proofs.Value.Fields

/-! Equality of data is an equivalence relation. Objects are compared by the number of their fields
and by what the keys of the one name in the other. The other way round nothing needs to be compared:
keys are distinct, so that as many fields under the same keys leave no room for another key. -/
namespace ReactiveView

/-- Ordered fields have the keys of other ordered fields if these are as many and have all
their keys. -/
theorem Fields.Ascending.keys_eq {α β : Type} {fields : List (String × α)}
    {others : List (String × β)} (ascending : Ascending fields) (ascending' : Ascending others)
    (length : fields.length = others.length)
    (found : ∀ key, (fields.lookup key).isSome → (others.lookup key).isSome) :
    fields.map (·.1) = others.map (·.1) := by
  have covered : fields.map (·.1) ⊆ others.map (·.1) := fun key member =>
    lookup_isSome_iff.mp (found key (lookup_isSome_iff.mpr member))
  have perm : (fields.map (·.1)).Perm (others.map (·.1)) := by
    refine (List.subperm_of_subset ascending.distinct covered).perm_of_length_le (Nat.le_of_eq ?_)
    simp only [List.length_map, length]
  have asymm : ∀ k l : String, k < l → l < k → k = l :=
    fun k l before after => (String.lt_asymm before after).elim
  exact List.Perm.eq_of_pairwise (fun k l _ _ => asymm k l) (List.pairwise_map.mpr ascending)
    (List.pairwise_map.mpr ascending') perm

namespace Value

variable {fs gs : List (String × Value)}

/-- The other fields are as many, and what each key names is equal to what it names among them. -/
structure Matches (fs gs : List (String × Value)) : Prop where
  length : fs.length = gs.length
  found : ∀ key x, fs.lookup key = some x → ∃ y, gs.lookup key = some y ∧ x.strictEq y = true

theorem matches_of_strictEqFields : ∀ {fs gs : List (String × Value)},
    strictEqFields fs gs = true → Matches fs gs
  | [], [], _ => ⟨rfl, nofun⟩
  | (k, x) :: fs, (l, y) :: gs, same => by
    simp only [strictEqFields, Bool.and_eq_true, beq_iff_eq] at same
    obtain ⟨⟨rfl, first⟩, later⟩ := same
    have later := matches_of_strictEqFields later
    refine ⟨congrArg (· + 1) later.length, fun key z named => ?_⟩
    rw [List.lookup_cons] at named ⊢
    cases here : key == k with
    | true =>
      rw [here] at named
      exact ⟨y, rfl, Option.some.inj named ▸ first⟩
    | false =>
      rw [here] at named
      exact later.found key z named

/-- Under the same distinct keys, what matches is equal field by field. -/
theorem strictEqFields_of_found : ∀ {fs gs : List (String × Value)},
    fs.map (·.1) = gs.map (·.1) → (fs.map (·.1)).Nodup →
    (∀ key x, fs.lookup key = some x → ∃ y, gs.lookup key = some y ∧ x.strictEq y = true) →
    strictEqFields fs gs = true
  | [], [], _, _, _ => by rw [strictEqFields]
  | (k, x) :: fs, (l, y) :: gs, keys, distinct, found => by
    simp only [List.map_cons, List.cons.injEq] at keys
    obtain ⟨rfl, keys⟩ := keys
    obtain ⟨fresh, distinct⟩ := List.nodup_cons.mp distinct
    obtain ⟨z, named, first⟩ := found k x List.lookup_cons_self
    obtain rfl : y = z := Option.some.inj (List.lookup_cons_self.symm.trans named)
    have later : strictEqFields fs gs = true := by
      refine strictEqFields_of_found keys distinct fun key z inner => ?_
      have other : (key == k) = false := by
        rw [beq_eq_false_iff_ne]
        rintro rfl
        exact fresh (lookup_isSome_iff.mp (Option.isSome_of_eq_some inner))
      have both := found key z
      rw [List.lookup_cons, List.lookup_cons, other] at both
      exact both inner
    simp only [strictEqFields, beq_self_eq_true, first, later, Bool.and_self]

theorem strictEq_object_iff (ascending : Fields.Ascending fs) (ascending' : Fields.Ascending gs) :
    (Value.object fs).strictEq (.object gs) = true ↔ Matches fs gs := by
  rw [strictEq]
  refine ⟨matches_of_strictEqFields, fun same => ?_⟩
  refine strictEqFields_of_found ?_ ascending.distinct same.found
  refine ascending.keys_eq ascending' same.length fun key named => ?_
  obtain ⟨x, named⟩ := Option.isSome_iff_exists.mp named
  obtain ⟨y, named', -⟩ := same.found key x named
  exact Option.isSome_of_eq_some named'

/-- Equality of data is an equivalence relation on all values, in which objects are equal exactly if
they have equally many fields and each key of the one names an equal value in the other. -/
theorem strictEq_equivalence :
    Equivalence (fun v w : Value => v.strictEq w = true) ∧
    ∀ fs gs : List (String × Value), Fields.Ascending fs → Fields.Ascending gs →
      ((Value.object fs).strictEq (.object gs) = true ↔ fs.length = gs.length ∧
        ∀ key x, fs.lookup key = some x → ∃ y, gs.lookup key = some y ∧ x.strictEq y = true) := by
  refine ⟨⟨strictEq_self, fun same => ?_, fun first second => ?_⟩,
    fun fs gs ascending ascending' => ?_⟩
  · rwa [strictEq_comm]
  · exact strictEq_trans _ _ _ first second
  · rw [strictEq_object_iff ascending ascending']
    exact ⟨fun same => ⟨same.length, same.found⟩, fun same => ⟨same.1, same.2⟩⟩

/-- An order as it was entered, with whole numbers. -/
def order : List (String × Value) :=
  [("items", .array [.object [("id", .number (.ofNat 7))], .null]), ("total", .number (.ofNat 0))]

/-- The order with one of the numbers computed. -/
def orderComputed : List (String × Value) :=
  [("items", .array [.object [("id", .number (.double (.ofInt 7)))], .null]),
    ("total", .number (.ofNat 0))]

/-- The order with both computed, the total as a negative zero. -/
def orderDiscounted : List (String × Value) :=
  [("items", .array [.object [("id", .number (.double (.ofInt 7)))], .null]),
    ("total", .number (.double .negativeZero))]

theorem orders_strictEq :
    (Value.object order).strictEq (.object orderComputed) = true ∧
    (Value.object orderComputed).strictEq (.object order) = true ∧
    (Value.object order).strictEq (.object orderDiscounted) = true ∧
    ∃ y, orderDiscounted.lookup "total" = some y ∧
      (Value.number (.ofNat 0)).strictEq y = true := by
  have first : (Value.object order).strictEq (.object orderComputed) = true := by decide +kernel
  have second : (Value.object orderComputed).strictEq (.object orderDiscounted) = true := by
    decide +kernel
  have ascending : Fields.Ascending order := by
    unfold Fields.Ascending
    decide +kernel
  have ascending' : Fields.Ascending orderDiscounted := by
    unfold Fields.Ascending
    decide +kernel
  obtain ⟨equivalence, byKeys⟩ := strictEq_equivalence
  have whole := equivalence.trans first second
  have matched := (byKeys _ _ ascending ascending').mp whole
  exact ⟨first, equivalence.symm first, whole, matched.2 "total" _ rfl⟩

end Value
end ReactiveView
