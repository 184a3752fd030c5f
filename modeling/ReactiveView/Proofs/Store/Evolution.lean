import ReactiveView.Proofs.Store.Arising

/-! What becomes of a store. Writes, computed properties and registrations keep its representation
regular: its cells form a tree below the root in which objects are numbered upwards, so that the
recursion that takes a snapshot comes to an end on every cell, in use or cut off. They make no cell
an object, and an object keeps the cells of its keys as long as it is one. -/
namespace ReactiveView.Store

variable {γ : Type} {s t u : Store γ} {c : CellId}

/-- The representation invariant of stores. -/
structure Regular (s : Store γ) : Prop extends Sound s where
  branching : Branching s.cells

/-- One store comes from another by any writes, computed properties and registrations. -/
inductive Becomes (s : Store γ) : Store γ → Prop
  | refl : s.Becomes s
  | write {t : Store γ} (parent : Handle) (key : String) (value : Value) :
      s.Becomes t → s.Becomes (t.write parent key value).2
  | defineComputed {t : Store γ} (name : String) (property : γ) :
      s.Becomes t → s.Becomes (t.defineComputed name property)
  | setRegistry {t : Store γ} (c : CellId) (r : Registry) :
      s.Becomes t → s.Becomes (t.setRegistry c r)

theorem Becomes.trans (first : s.Becomes t) (second : t.Becomes u) : s.Becomes u := by
  induction second with
  | refl => exact first
  | write parent key value _ ih => exact .write parent key value ih
  | defineComputed name property _ ih => exact .defineComputed name property ih
  | setRegistry c r _ ih => exact .setRegistry c r ih

/-- No cell has become an object, and the objects that are left have got keys at most. -/
structure Extends (s t : Store γ) : Prop where
  root : t.root = s.root
  size : s.cells.size ≤ t.cells.size
  objects : ∀ c after, t.content c = .object after → ∃ before, s.content c = .object before ∧
    before <+: after

namespace Extends

theorem refl (s : Store γ) : s.Extends s :=
  ⟨rfl, Nat.le_refl _, fun _ keys object => ⟨keys, object, List.prefix_refl keys⟩⟩

theorem trans (first : s.Extends t) (second : t.Extends u) : s.Extends u where
  root := second.root.trans first.root
  size := Nat.le_trans first.size second.size
  objects c after object := by
    obtain ⟨between, was, prefix₂⟩ := second.objects c after object
    obtain ⟨before, was, prefix₁⟩ := first.objects c between was
    exact ⟨before, was, prefix₁.trans prefix₂⟩

theorem setContent (s : Store γ) (c : CellId) {content : Content γ}
    (flat : ∀ keys, content ≠ .object keys) : s.Extends (s.setContent c content) where
  root := rfl
  size := by simp
  objects _ keys object := ⟨keys, object_of_setContent flat object, List.prefix_refl keys⟩

theorem setRegistry (s : Store γ) (c : CellId) (r : Registry) : s.Extends (s.setRegistry c r) where
  root := rfl
  size := by simp
  objects id keys object :=
    ⟨keys, (content_setRegistry s c id r).symm.trans object, List.prefix_refl keys⟩

theorem addMember {parent : CellId} {keys : List (String × CellId)}
    (object : s.content parent = .object keys) (key : String) {content : Content γ}
    (flat : ∀ keys, content ≠ .object keys) : s.Extends (s.addMember parent key content) where
  root := root_addMember s parent key content
  size := by simp [Store.addMember, object]
  objects c after found := by
    obtain ⟨rfl, rfl⟩ | ⟨-, was⟩ := object_of_addMember object flat found
    · exact ⟨keys, object, List.prefix_append ..⟩
    · exact ⟨after, was, List.prefix_refl after⟩

/-- What leads to a cell leads there as long as there is an object to lead from. -/
theorem child? (extended : s.Extends t) {parent : CellId} {key : String} {after}
    (found : s.child? parent key = some c) (object : t.content parent = .object after) :
    t.child? parent key = some c := by
  obtain ⟨before, was, more, rfl⟩ := extended.objects parent after object
  simp only [Store.child?, was] at found
  simp only [Store.child?, object, List.lookup_append, found, Option.some_or]

end Extends

namespace Regular

theorem ofValue {data : Value} (canonical : data.Canonical) : (ofValue data : Store γ).Regular :=
  have tree : (Store.ofValue data : Store γ).Tree := tree_ofValue canonical
  ⟨tree.sound, tree.branching⟩

variable (regular : s.Regular)
include regular

theorem setContent (notRoot : c ≠ s.root) {content : Content γ}
    (flat : ∀ keys, content ≠ .object keys) :
    (s.setContent c content).Regular ∧ s.Extends (s.setContent c content) :=
  ⟨⟨regular.toSound.setContent notRoot flat, regular.branching.setContent c flat⟩,
    .setContent s c flat⟩

theorem addMember {parent : CellId} {keys : List (String × CellId)}
    (object : s.content parent = .object keys) {key : String} (fresh : keys.lookup key = none)
    {content : Content γ} (flat : ∀ keys, content ≠ .object keys) :
    (s.addMember parent key content).Regular ∧ s.Extends (s.addMember parent key content) :=
  ⟨⟨regular.toSound.addMember parent key flat,
    regular.branching.addMember regular.toSound object fresh flat⟩, .addMember object key flat⟩

theorem setRegistry (c : CellId) (r : Registry) :
    (s.setRegistry c r).Regular ∧ s.Extends (s.setRegistry c r) :=
  ⟨⟨regular.toSound.setRegistry c r, (SameData.setRegistry s c r).branching regular.branching⟩,
    .setRegistry s c r⟩

theorem write (parent : Handle) (key : String) (value : Value) :
    (s.write parent key value).2.Regular ∧ s.Extends (s.write parent key value).2 := by
  obtain same | ⟨c, v, notRoot, changed⟩ | ⟨a, keys, object, fresh, added⟩ :=
    regular.toSound.write_cases parent key value
  · rw [same]
    exact ⟨regular, .refl s⟩
  · rw [changed]
    exact regular.setContent notRoot nofun
  · rw [added]
    exact regular.addMember object fresh nofun

theorem defineComputed (name : String) (property : γ) :
    (s.defineComputed name property).Regular ∧ s.Extends (s.defineComputed name property) := by
  obtain ⟨keys, root⟩ := regular.root_object
  unfold Store.defineComputed
  cases found : s.child? s.root name with
  | some c => exact regular.setContent (regular.toSound.child found).2 nofun
  | none =>
    simp only [Store.child?, root] at found
    exact regular.addMember root found nofun

/-- The run lemma: whatever becomes of a regular store is regular and extends it. -/
theorem becomes (becomes : s.Becomes t) : t.Regular ∧ s.Extends t := by
  induction becomes with
  | refl => exact ⟨regular, .refl s⟩
  | write parent key value _ ih =>
    have step := ih.1.write parent key value
    exact ⟨step.1, ih.2.trans step.2⟩
  | defineComputed name property _ ih =>
    have step := ih.1.defineComputed name property
    exact ⟨step.1, ih.2.trans step.2⟩
  | setRegistry c r _ ih =>
    have step := ih.1.setRegistry c r
    exact ⟨step.1, ih.2.trans step.2⟩

end Regular

section Reading

/-- The recursion that takes the snapshot of a cell ends, with this value. -/
inductive Shows (s : Store γ) : CellId → Value → Prop
  | leaf {c : CellId} {v : Value} : s.content c = .leaf v → s.Shows c v
  | computed {c : CellId} {property : γ} : s.content c = .computed property → s.Shows c .null
  | object {c : CellId} {keys : List (String × CellId)} (shown : CellId → Value) :
      s.content c = .object keys →
      (∀ member ∈ keys, (∀ property, s.content member.2 ≠ .computed property) →
        s.Shows member.2 (shown member.2)) →
      s.Shows c (Value.ofPairs (keys.filterMap fun (key, child) =>
        match s.content child with
        | .computed _ => none
        | _ => some (key, shown child)))

/-- The value at a place, as it is read there by the recursion. -/
inductive Holds (s : Store γ) : Handle → Value → Prop
  | object {c : CellId} {v : Value} : s.Shows c v → s.Holds (.object c) v
  | inside {c : CellId} {pointer : String} {v : Value} : s.content c = .leaf v →
      s.Holds (.leaf c pointer) ((v.pointer? pointer).getD .null)
  | whole {c : CellId} {pointer : String} {v : Value} : (∀ v, s.content c ≠ .leaf v) →
      s.Shows c v → s.Holds (.leaf c pointer) v
  | detached {v : Value} : s.Holds (.detached v) v

theorem members_congr {keys : List (String × CellId)} {shown shown' : CellId → Value}
    (same : ∀ member ∈ keys, (∀ property, s.content member.2 ≠ .computed property) →
      shown member.2 = shown' member.2) :
    (keys.filterMap fun (key, child) =>
      match s.content child with
      | .computed _ => none
      | _ => some (key, shown child)) =
    keys.filterMap fun (key, child) =>
      match s.content child with
      | .computed _ => none
      | _ => some (key, shown' child) := by
  refine List.filterMap_congr ?_
  rintro ⟨key, child⟩ member
  cases content : s.content child with
  | computed property => simp only [content]
  | leaf v =>
    have agrees := same _ member (by simp [content])
    simp only [agrees]
  | object keys =>
    have agrees := same _ member (by simp [content])
    simp only [agrees]

theorem Shows.unique {v v' : Value} (first : s.Shows c v) (second : s.Shows c v') : v = v' := by
  induction first generalizing v' with
  | leaf found =>
    cases second with
    | leaf found' => exact Content.leaf.inj (found.symm.trans found')
    | computed found' => cases found.symm.trans found'
    | object _ found' => cases found.symm.trans found'
  | computed found =>
    cases second with
    | leaf found' => cases found.symm.trans found'
    | computed found' => rfl
    | object _ found' => cases found.symm.trans found'
  | object shown found members ih =>
    cases second with
    | leaf found' => cases found.symm.trans found'
    | computed found' => cases found.symm.trans found'
    | object shown' found' members' =>
      obtain rfl := Content.object.inj (found.symm.trans found')
      exact congrArg Value.ofPairs (members_congr fun member member_in visible =>
        ih member member_in visible (members' member member_in visible))

theorem Holds.unique {place : Handle} {v v' : Value} (first : s.Holds place v)
    (second : s.Holds place v') : v = v' := by
  cases first with
  | object shows =>
    cases second with
    | object shows' => exact shows.unique shows'
  | inside leaf =>
    cases second with
    | inside leaf' => rw [Content.leaf.inj (leaf.symm.trans leaf')]
    | whole notLeaf => exact (notLeaf _ leaf).elim
  | whole notLeaf shows =>
    cases second with
    | inside leaf => exact (notLeaf _ leaf).elim
    | whole _ shows' => exact shows.unique shows'
  | detached =>
    cases second with
    | detached => rfl

/-- As objects lie below their numbers, that many levels are enough. -/
theorem Sound.shows_snapshotTo (sound : s.Sound) {levels : Nat} (c : CellId)
    (enough : ∀ keys, s.content c = .object keys → c < levels) :
    s.Shows c (s.snapshotTo levels c) := by
  induction levels generalizing c with
  | zero =>
    cases content : s.content c with
    | leaf v =>
      rw [snapshotTo, content]
      exact .leaf content
    | computed property =>
      rw [snapshotTo, content]
      exact .computed content
    | object keys => exact absurd (enough keys content) (Nat.not_lt_zero c)
  | succ levels ih =>
    cases content : s.content c with
    | leaf v =>
      rw [snapshotTo, content]
      exact .leaf content
    | computed property =>
      rw [snapshotTo, content]
      exact .computed content
    | object keys =>
      rw [snapshotTo, content]
      refine .object _ content fun member member_in _ => ih member.2 fun inner object => ?_
      have below := sound.nested c keys content member member_in inner object
      have bound := enough keys content
      lia

theorem Sound.shows_iff (sound : s.Sound) (c : CellId) (v : Value) :
    s.Shows c v ↔ v = s.snapshotOf c := by
  have shows : s.Shows c (s.snapshotOf c) :=
    sound.shows_snapshotTo c fun _ object => inside_of_object object
  exact ⟨fun other => other.unique shows, fun same => same ▸ shows⟩

theorem Sound.holds_iff (sound : s.Sound) (place : Handle) (v : Value) :
    s.Holds place v ↔ v = s.valueOf place := by
  have shows : ∀ c, s.Shows c (s.snapshotOf c) := fun c => (sound.shows_iff c _).mpr rfl
  have holds : s.Holds place (s.valueOf place) := by
    cases place with
    | object c => exact .object (shows c)
    | detached v => exact .detached
    | leaf c pointer =>
      cases content : s.content c with
      | leaf v =>
        simp only [valueOf, content]
        exact .inside content
      | computed property =>
        simp only [valueOf, content]
        exact .whole (by simp [content]) (shows c)
      | object keys =>
        simp only [valueOf, content]
        exact .whole (by simp [content]) (shows c)
  exact ⟨fun other => other.unique holds, fun same => same ▸ holds⟩

end Reading
end ReactiveView.Store
