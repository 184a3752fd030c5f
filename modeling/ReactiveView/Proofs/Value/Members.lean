import ReactiveView.Proofs.Value.Fields

/-! The members of an object and of the objects inside it, listed in post-order: keys in ascending
order, and what is inside a member before the member. Arrays have no members here. -/
namespace ReactiveView.Value

/-- The order of a listing: keys that lead further in come before those that they go on from, and
else the first keys that differ decide. -/
inductive Before : List String → List String → Prop
  | inside {key : String} {rest : List String} : Before (key :: rest) []
  | apart {key other : String} {rest rest' : List String} : key < other →
      Before (key :: rest) (other :: rest')
  | further {key : String} {rest rest' : List String} : Before rest rest' →
      Before (key :: rest) (key :: rest')

theorem Before.irrefl {keys : List String} : ¬ Before keys keys := by
  intro before
  induction keys with
  | nil => cases before
  | cons key rest ih =>
    cases before with
    | apart smaller => exact String.lt_irrefl key smaller
    | further further => exact ih further

mutual

/-- Each member with the keys that lead to it. -/
def members : Value → List (List String × Value)
  | .object fields => membersOf fields
  | _ => []

def membersOf : List (String × Value) → List (List String × Value)
  | [] => []
  | (key, v) :: rest => v.members.map (fun m => (key :: m.1, m.2)) ++ ([key], v) :: membersOf rest

end

mutual

/-- How many members an object has, together with all objects that are reached through members. -/
def memberCount : Value → Nat
  | .object fields => memberCountOf fields
  | _ => 0

def memberCountOf : List (String × Value) → Nat
  | [] => 0
  | (_, v) :: rest => v.memberCount + 1 + memberCountOf rest

end

/-- What keys lead to by way of objects only. -/
def memberAt? : List String → Value → Option Value
  | [], v => some v
  | key :: rest, .object fields => (fields.lookup key).bind (memberAt? rest)
  | _ :: _, _ => none

mutual

theorem length_members : ∀ v : Value, v.members.length = v.memberCount
  | .object fields => length_membersOf fields
  | .null | .bool _ | .number _ | .string _ | .array _ => rfl

theorem length_membersOf : ∀ fields : List (String × Value),
    (membersOf fields).length = memberCountOf fields
  | [] => rfl
  | (_, v) :: rest => by
    rw [membersOf, memberCountOf, List.length_append, List.length_map, List.length_cons,
      length_members v, length_membersOf rest]
    omega

end

/-- The keys to a member of fields begin with the key of one of them. -/
theorem exists_of_mem_membersOf {fields : List (String × Value)} {m : List String × Value}
    (member : m ∈ membersOf fields) :
    ∃ key rest, m.1 = key :: rest ∧ key ∈ fields.map Prod.fst := by
  induction fields with
  | nil => cases member
  | cons field fields ih =>
    obtain ⟨key, v⟩ := field
    rw [membersOf] at member
    obtain inner | here | later := (List.mem_append.mp member).imp_right List.mem_cons.mp
    · obtain ⟨m, -, rfl⟩ := List.mem_map.mp inner
      exact ⟨key, m.1, rfl, List.mem_cons_self⟩
    · exact ⟨key, [], congrArg Prod.fst here, List.mem_cons_self⟩
    · obtain ⟨other, rest, same, listed⟩ := ih later
      exact ⟨other, rest, same, List.mem_cons_of_mem _ listed⟩

mutual

theorem pairwise_members : ∀ v : Value, v.Canonical → v.members.Pairwise fun m m' => Before m.1 m'.1
  | .object fields, canonical => pairwise_membersOf fields canonical.1 canonical.2
  | .null, _ | .bool _, _ | .number _, _ | .string _, _ | .array _, _ => .nil

theorem pairwise_membersOf : ∀ fields : List (String × Value), Fields.Ascending fields →
    CanonicalFields fields → (membersOf fields).Pairwise fun m m' => Before m.1 m'.1
  | [], _, _ => .nil
  | (key, v) :: rest, ascending, canonical => by
    obtain ⟨above, ordered⟩ := List.pairwise_cons.mp ascending
    have later : ∀ keys, ∀ m ∈ membersOf rest, Before (key :: keys) m.1 := by
      intro keys m member
      obtain ⟨other, more, same, listed⟩ := exists_of_mem_membersOf member
      obtain ⟨field, field_in, rfl⟩ := List.mem_map.mp listed
      exact same ▸ .apart (above field field_in)
    have inner : (v.members.map fun m => (key :: m.1, m.2)).Pairwise fun m m' => Before m.1 m'.1 :=
      List.pairwise_map.mpr ((pairwise_members v canonical.1).imp .further)
    have behind : (([key], v) :: membersOf rest).Pairwise fun m m' => Before m.1 m'.1 :=
      List.pairwise_cons.mpr ⟨later [], pairwise_membersOf rest ordered canonical.2⟩
    rw [membersOf]
    refine List.pairwise_append.mpr ⟨inner, behind, fun m member m' member' => ?_⟩
    obtain ⟨m, found, rfl⟩ := List.mem_map.mp member
    obtain rfl | member' := List.mem_cons.mp member'
    · -- What is inside a member has at least one key more.
      refine .further ?_
      cases v with
      | object fields =>
        obtain ⟨first, keys, same, -⟩ := exists_of_mem_membersOf found
        exact same ▸ .inside
      | _ => cases found
    · exact later m.1 m' member'

end

/-- No member is listed twice. -/
theorem nodup_members {v : Value} (canonical : v.Canonical) : (v.members.map Prod.fst).Nodup := by
  refine List.pairwise_map.mpr ((pairwise_members v canonical).imp fun before same => ?_)
  rw [same] at before
  exact before.irrefl

mutual

/-- All members are listed. -/
theorem mem_members_iff : ∀ (v : Value) (keys : List String) (u : Value), v.Canonical →
    ((keys, u) ∈ v.members ↔ keys ≠ [] ∧ v.memberAt? keys = some u)
  | .object fields, [], u, _ => by
    simp only [ne_eq, not_true_eq_false, false_and, iff_false]
    intro member
    obtain ⟨key, rest, same, -⟩ := exists_of_mem_membersOf member
    cases same
  | .object fields, key :: rest, u, canonical => by
    rw [members, mem_membersOf_iff fields key rest u canonical.1 canonical.2, memberAt?]
    simp
  | .null, keys, _, _ | .bool _, keys, _, _ | .number _, keys, _, _ | .string _, keys, _, _
  | .array _, keys, _, _ => by
    cases keys <;> simp [members, memberAt?]

theorem mem_membersOf_iff : ∀ (fields : List (String × Value)) (key : String) (rest : List String)
    (u : Value), Fields.Ascending fields → CanonicalFields fields →
      ((key :: rest, u) ∈ membersOf fields ↔ (fields.lookup key).bind (memberAt? rest) = some u)
  | [], _, _, _, _, _ => by simp [membersOf]
  | (name, v) :: fields, key, rest, u, ascending, canonical => by
    obtain ⟨above, ordered⟩ := List.pairwise_cons.mp ascending
    have later := mem_membersOf_iff fields key rest u ordered canonical.2
    have inner := mem_members_iff v rest u canonical.1
    rw [membersOf, List.mem_append, List.mem_cons, List.lookup_cons]
    by_cases same : key = name
    · subst same
      have absent : (key :: rest, u) ∉ membersOf fields := by
        intro member
        obtain ⟨other, more, same, listed⟩ := exists_of_mem_membersOf member
        obtain ⟨rfl, -⟩ := List.cons.inj same
        obtain ⟨field, field_in, equal⟩ := List.mem_map.mp listed
        exact String.lt_irrefl key (by simpa [equal] using above field field_in)
      have here : (key :: rest, u) ∈ v.members.map (fun m => (key :: m.1, m.2)) ↔
          (rest, u) ∈ v.members := by
        simp
      rw [here, inner]
      cases rest with
      | nil => simp [memberAt?, absent, eq_comm]
      | cons next rest => simp [absent]
    · have apart : (key == name) = false := beq_eq_false_iff_ne.mpr same
      simp [apart, later, Ne.symm same, same]

end

end ReactiveView.Value
