import Mathlib.Data.List.Induction
import Mathlib.Data.List.Nodup
import ReactiveView.Proofs.Store.Soundness

/-! Fields under their keys. Whatever puts fields in order keeps what each key names, and ordered
fields in which every key names the same are the same fields. -/
namespace ReactiveView

theorem lookup_isSome_iff {β : Type} {key : String} {fields : List (String × β)} :
    (fields.lookup key).isSome ↔ key ∈ fields.map (·.1) := by
  constructor
  · intro some
    obtain ⟨b, found⟩ := Option.isSome_iff_exists.mp some
    exact List.mem_map_of_mem (Store.mem_of_lookup found)
  · intro member
    cases found : fields.lookup key with
    | some b => rfl
    | none =>
      obtain ⟨field, within, rfl⟩ := List.mem_map.mp member
      simpa using List.lookup_eq_none_iff.mp found field within

/-- Where keys are distinct, each names the field it comes with. -/
theorem lookup_of_mem {β : Type} {key : String} {b : β} {fields : List (String × β)}
    (distinct : (fields.map (·.1)).Nodup) (member : (key, b) ∈ fields) :
    fields.lookup key = some b := by
  induction fields with
  | nil => cases member
  | cons field rest ih =>
    obtain ⟨name, c⟩ := field
    obtain ⟨fresh, distinct⟩ := List.nodup_cons.mp distinct
    obtain same | later := List.mem_cons.mp member
    · cases same
      exact List.lookup_cons_self
    · have other : (key == name) = false := by
        rw [beq_eq_false_iff_ne]
        rintro rfl
        exact fresh (List.mem_map.mpr ⟨_, later, rfl⟩)
      rw [List.lookup_cons, other]
      exact ih distinct later

theorem lookup_map {β δ : Type} (f : β → δ) (key : String) (fields : List (String × β)) :
    (fields.map fun field => (field.1, f field.2)).lookup key = (fields.lookup key).map f := by
  induction fields with
  | nil => rfl
  | cons field rest ih =>
    obtain ⟨name, b⟩ := field
    simp only [List.map_cons, List.lookup_cons, ih]
    cases key == name <;> rfl

namespace Fields

variable {α : Type}

theorem lookup_insert_self (key : String) (a : α) (fields : List (String × α)) :
    (insert key a fields).lookup key = some a := by
  induction fields with
  | nil => simp [insert]
  | cons field rest ih =>
    simp only [insert]
    split
    · exact List.lookup_cons_self
    · split
      · exact List.lookup_cons_self
      · rename_i other
        rw [List.lookup_cons, beq_eq_false_iff_ne.mpr other]
        exact ih

theorem lookup_insert_of_ne {key other : String} (distinct : other ≠ key) (a : α)
    (fields : List (String × α)) : (insert key a fields).lookup other = fields.lookup other := by
  have apart : (other == key) = false := beq_eq_false_iff_ne.mpr distinct
  induction fields with
  | nil => simp only [insert, List.lookup_cons, apart]
  | cons field rest ih =>
    obtain ⟨name, b⟩ := field
    simp only [insert]
    split
    · simp only [List.lookup_cons, apart]
    · split
      · rename_i same
        simp only [List.lookup_cons, apart, same.symm]
      · simp only [List.lookup_cons, ih]

theorem ofPairs_concat (pairs : List (String × α)) (key : String) (a : α) :
    ofPairs (pairs ++ [(key, a)]) = insert key a (ofPairs pairs) := by
  simp only [ofPairs, List.foldl_append, List.foldl_cons, List.foldl_nil]

/-- Putting pairs in order keeps what each key names. -/
theorem lookup_ofPairs {pairs : List (String × α)} (distinct : (pairs.map (·.1)).Nodup)
    (key : String) : (ofPairs pairs).lookup key = pairs.lookup key := by
  induction pairs using List.reverseRecOn with
  | nil => rfl
  | append_singleton before last ih =>
    obtain ⟨name, a⟩ := last
    rw [List.map_append, List.nodup_append] at distinct
    obtain ⟨distinct, -, apart⟩ := distinct
    rw [ofPairs_concat, List.lookup_append]
    by_cases same : key = name
    · subst same
      have fresh : before.lookup key = none := by
        cases found : before.lookup key with
        | none => rfl
        | some b =>
          exact (apart key (List.mem_map_of_mem (Store.mem_of_lookup found)) key (by simp) rfl).elim
      rw [lookup_insert_self, fresh]
      simp
    · rw [lookup_insert_of_ne same, ih distinct, List.lookup_cons, beq_eq_false_iff_ne.mpr same]
      exact (Option.or_none ..).symm

theorem Ascending.distinct {fields : List (String × α)} (ascending : Ascending fields) :
    (fields.map (·.1)).Nodup := by
  refine List.pairwise_map.mpr (List.Pairwise.imp ?_ ascending)
  intro p q before same
  exact String.lt_irrefl q.1 (same ▸ before)

/-- Ordered fields are determined by what each key names. -/
theorem Ascending.ext {fields others : List (String × α)} (ascending : Ascending fields)
    (ascending' : Ascending others) (same : ∀ key, fields.lookup key = others.lookup key) :
    fields = others := by
  have subset : ∀ {first second : List (String × α)}, Ascending first →
      (∀ key, first.lookup key = second.lookup key) → first ⊆ second := by
    intro first second ordered agree field member
    have found := lookup_of_mem ordered.distinct (show (field.1, field.2) ∈ first from member)
    exact Store.mem_of_lookup ((agree field.1).symm.trans found)
  have pairwise : ∀ {first : List (String × α)}, Ascending first → first.Nodup :=
    fun ordered => List.Nodup.of_map _ ordered.distinct
  have perm : fields.Perm others := (List.perm_ext_iff_of_nodup (pairwise ascending)
    (pairwise ascending')).mpr fun field =>
      ⟨fun member => subset ascending same member,
        fun member => subset ascending' (fun key => (same key).symm) member⟩
  have asymm : ∀ p q : String × α, p.1 < q.1 → q.1 < p.1 → p = q :=
    fun p q before after => (String.lt_asymm before after).elim
  exact List.Perm.eq_of_pairwise (fun p q _ _ => asymm p q) ascending ascending' perm

/-- Ordered fields stay so when the field of a key is replaced. -/
theorem Ascending.set {fields : List (String × α)} (ascending : Ascending fields) {key : String}
    {old : α} (found : fields.lookup key = some old) (a : α) :
    Ascending (Entries.set key a fields) := by
  have names : (Entries.set key a fields).map (·.1) = fields.map (·.1) := by
    clear ascending
    induction fields with
    | nil => cases found
    | cons field rest ih =>
      obtain ⟨name, b⟩ := field
      by_cases same : name = key
      · simp [Entries.set, same]
      · rw [List.lookup_cons, beq_eq_false_iff_ne.mpr (Ne.symm same)] at found
        simp only [Entries.set, if_neg same, List.map_cons, ih found]
  have ordered : (fields.map (·.1)).Pairwise (· < ·) := List.pairwise_map.mpr ascending
  exact List.pairwise_map.mp (names ▸ ordered)

end Fields
end ReactiveView
