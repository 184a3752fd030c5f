import Mathlib.Data.Nat.Digits.Defs
import ReactiveView.Proofs.Value.Place

/-! Places apart from each other. Two lists of keys are apart if neither begins with the
other, so that they part at some key. An index has one canonical spelling, hence keys that
differ name different members, and a write at one place changes nothing that is read along
keys apart from it. -/
namespace ReactiveView

namespace Index

/-- What the digits of a text stand for, the last digit first. -/
def places (s : List Char) : List Nat :=
  (s.map fun c => c.toNat - '0'.toNat).reverse

theorem digits?_eq_some {s : List Char} {i : Nat} (read : digits? s = some i) :
    s ≠ [] ∧ (∀ c ∈ s, c.isDigit = true) ∧ i = Nat.ofDigits 10 (places s) := by
  unfold digits? at read
  split at read
  · rename_i isText
    simp only [ne_eq, decide_not, Bool.and_eq_true, Bool.not_eq_true', decide_eq_false_iff_not,
      List.all_eq_true] at isText
    refine ⟨isText.1, isText.2, ?_⟩
    rw [← Option.some.inj read, Nat.ofDigits_eq_foldr, places, List.foldr_reverse, List.foldl_map]
    simp only [Nat.cast_id, Nat.add_comm]
  · cases read

theorem digit_bounds {c : Char} (digit : c.isDigit = true) :
    '0'.toNat ≤ c.toNat ∧ c.toNat ≤ '9'.toNat := by
  simpa [Char.isDigit, UInt32.le_iff_toNat_le] using digit

/-- A text of digits is known from what its digits stand for. -/
theorem text_of_places {s : List Char} (digits : ∀ c ∈ s, c.isDigit = true) :
    (places s).reverse.map (fun d => Char.ofNat (d + '0'.toNat)) = s := by
  rw [places, List.reverse_reverse, List.map_map]
  refine (List.map_congr_left fun c member => ?_).trans (List.map_id s)
  have bounds := digit_bounds (digits c member)
  simp only [Function.comp_apply, Nat.sub_add_cancel bounds.1, Char.ofNat_toNat, id_eq]

/-- The digits of a canonical index are those of the number. -/
theorem places_of_canonical? {key : String} {i : Nat} (read : canonical? key = some i) :
    places key.toList = if i = 0 then [0] else Nat.digits 10 i := by
  unfold canonical? at read
  split at read
  · cases read
  · rename_i short
    obtain ⟨filled, digits, rfl⟩ := digits?_eq_some read
    obtain ⟨c, rest, spelt⟩ := List.exists_cons_of_ne_nil filled
    rw [spelt] at short digits ⊢
    by_cases zero : c = '0'
    · subst zero
      cases rest with
      | nil => rfl
      | cons d rest => exact (short d rest rfl).elim
    · have bounded : ∀ d ∈ places (c :: rest), d < 10 := by
        intro d member
        obtain ⟨e, within, rfl⟩ := List.mem_map.mp (List.mem_reverse.mp member)
        have bounds := digit_bounds (digits e within)
        have : '9'.toNat = '0'.toNat + 9 := rfl
        omega
      have leading : ∀ filled, (places (c :: rest)).getLast filled ≠ 0 := by
        intro filled isZero
        simp only [places, List.map_cons, List.getLast_reverse, List.head_cons] at isZero
        have bounds := digit_bounds (digits c List.mem_cons_self)
        have same : c.toNat = '0'.toNat := by omega
        exact zero (Char.ext (UInt32.toNat_inj.mp same))
      have back := Nat.digits_ofDigits 10 (by decide) _ bounded leading
      rw [if_neg, back]
      intro isZero
      rw [isZero] at back
      simp [places] at back

/-- An index has one canonical spelling. -/
theorem canonical?_injective {key other : String} {i : Nat} (read : canonical? key = some i)
    (read' : canonical? other = some i) : key = other := by
  have digits : ∀ {key : String}, canonical? key = some i → ∀ c ∈ key.toList, c.isDigit = true := by
    intro key read
    unfold canonical? at read
    split at read
    · cases read
    · exact (digits?_eq_some read).2.1
  have same := (places_of_canonical? read).trans (places_of_canonical? read').symm
  have text := text_of_places (digits read)
  rw [same, text_of_places (digits read')] at text
  exact String.toList_inj.mp text.symm

end Index

/-- Neither list of keys begins with the other. -/
def Apart (keys others : List String) : Prop :=
  ¬ keys <+: others ∧ ¬ others <+: keys

theorem Apart.tail {key : String} {keys others : List String}
    (apart : Apart (key :: keys) (key :: others)) : Apart keys others := by
  constructor
  · intro begins
    exact apart.1 (List.cons_prefix_cons.mpr ⟨rfl, begins⟩)
  · intro begins
    exact apart.2 (List.cons_prefix_cons.mpr ⟨rfl, begins⟩)

namespace Value

variable {v w parent changed data data' : Value} {key other path : String} {others : List String}

/-- Putting a member changes no other one. -/
theorem step?_putStep_of_ne (distinct : other ≠ key) (v w : Value) :
    (v.putStep key w).step? other = v.step? other := by
  cases v with
  | object fields => exact Entries.lookup_set_of_ne distinct w fields
  | array items =>
    simp only [putStep]
    cases read : Index.canonical? key with
    | none => rfl
    | some i =>
      cases read' : Index.canonical? other with
      | none => simp only [step?, read', Option.bind_none]
      | some j =>
        have apart : i ≠ j := by
          rintro rfl
          exact distinct (Index.canonical?_injective read' read)
        simp only [step?, read', Option.bind_some, List.getElem?_set_ne apart]
  | _ => rfl

theorem isNull_putStep (v : Value) (key : String) (w : Value) :
    (v.putStep key w).isNull = v.isNull := by
  cases v with
  | array items =>
    simp only [putStep]
    cases Index.canonical? key <;> rfl
  | _ => rfl

/-- A write of a member, by its one spelling, changes no other one. -/
theorem setMember_apart (spelt : ¬ Index.Misspelt key)
    (wrote : v.setMember key w = (.silent, changed)) :
    (∀ other ≠ key, changed.step? other = v.step? other) ∧ changed.isNull = v.isNull := by
  cases v with
  | object fields =>
    simp only [setMember] at wrote
    split at wrote
    · cases wrote
      exact ⟨fun other distinct => Fields.lookup_insert_of_ne distinct w fields, rfl⟩
    · split at wrote
      · cases wrote
      · cases wrote
        exact ⟨fun other distinct => step?_putStep_of_ne distinct (.object fields) w, rfl⟩
  | array items =>
    simp only [setMember] at wrote
    split at wrote
    · cases wrote
    · rename_i i parsed
      split at wrote
      · cases wrote
      · split at wrote
        · cases wrote
        · cases wrote
          have put : Value.array (items.set i w) = (Value.array items).putStep key w := by
            simp only [putStep, Index.canonical?_eq_parse? spelt, parsed]
          rw [put]
          exact ⟨fun other distinct => step?_putStep_of_ne distinct _ w, isNull_putStep _ key w⟩
  | _ => cases wrote

/-- Where the first key names the same, all keys read the same. -/
theorem readKeys_congr (step : v.step? key = w.step? key) (null : v.isNull = w.isNull)
    (rest : List String) : v.readKeys path (key :: rest) = w.readKeys path (key :: rest) := by
  cases rest with
  | nil =>
    have reached : ∀ v : Value, v.follow path [key].dropLast = .ok v := fun _ => rfl
    rw [readKeys_of_follow (reached v), readKeys_of_follow (reached w)]
    simp only [List.getLastD_cons, List.getLastD_nil, step, null]
  | cons next rest =>
    simp only [readKeys, List.dropLast_cons_cons, follow, step, List.getLastD_cons]

theorem readKeys_cons (found : v.step? key = some w) (next : String) (rest : List String) :
    v.readKeys path (key :: next :: rest) = w.readKeys path (next :: rest) := by
  simp only [readKeys, List.dropLast_cons_cons, follow, found, List.getLastD_cons]

/-- A change of one member of a place shows only along the keys to it. -/
theorem readKeys_putAt {way : List String} (found : v.at? way = some parent)
    (same : ∀ other ≠ key, changed.step? other = parent.step? other)
    (null : changed.isNull = parent.isNull) (apart : Apart (way ++ [key]) others) :
    (v.putAt way changed).readKeys path others = v.readKeys path others := by
  induction way generalizing v others with
  | nil =>
    obtain rfl := Option.some.inj found
    cases others with
    | nil => exact (apart.2 List.nil_prefix).elim
    | cons other rest =>
      refine readKeys_congr (same other ?_) null rest
      rintro rfl
      exact apart.1 (List.cons_prefix_cons.mpr ⟨rfl, List.nil_prefix⟩)
  | cons first way ih =>
    obtain ⟨inner, step, further⟩ := Option.bind_eq_some_iff.mp found
    simp only [putAt, step]
    cases others with
    | nil => exact (apart.2 List.nil_prefix).elim
    | cons other rest =>
      by_cases together : other = first
      · subst together
        cases rest with
        | nil => exact (apart.2 (List.cons_prefix_cons.mpr ⟨rfl, List.nil_prefix⟩)).elim
        | cons next rest =>
          rw [readKeys_cons (step?_putStep step _), readKeys_cons step]
          exact ih further apart.tail
      · exact readKeys_congr (step?_putStep_of_ne together _ _) (isNull_putStep _ _ _) rest

/-- A write leaves what is read along keys apart from its own. A last key that misspells an index
would name a member that the other keys may name as well. -/
theorem read_assigned_apart (wrote : data.assigned path w = .ok data')
    (apart : Apart (Path.pieces path) (Path.pieces other))
    (spelt : ¬ Index.Misspelt ((Path.pieces path).getLastD "")) :
    data'.read other = data.read other := by
  cases blank : Path.isEmpty other with
  | true => simp only [read, Path.segments, blank, if_true, bind, Except.bind]
  | false =>
    cases blank' : Path.isEmpty path with
    | true => simp [assigned, Path.segments, blank', bind, Except.bind] at wrote
    | false =>
      cases reached : data.follow path (Path.pieces path).dropLast with
      | error e => cases (assigned_of_error blank' reached w).symm.trans wrote
      | ok parent =>
        rw [assigned_of_follow blank' reached] at wrote
        have there := follow_eq_ok reached
        obtain missing | ⟨unchanged, -⟩ | ⟨changed, silent, -⟩ :=
          setMember_cases parent ((Path.pieces path).getLastD "") w
        · simp only [missing] at wrote
          cases wrote
        · simp only [unchanged] at wrote
          rw [← Except.ok.inj wrote]
        · simp only [silent] at wrote
          obtain ⟨same, null⟩ := setMember_apart spelt silent
          rw [← Except.ok.inj wrote, read_eq blank, read_eq blank]
          refine readKeys_putAt there same null ?_
          rw [Path.dropLast_append_getLastD]
          exact apart

end Value
end ReactiveView
