import ReactiveView.Proofs.Store.Reading

/-! Places in a plain store. Keys that lead through objects come to the cells of members, and keys
that lead into a leaf stay within it. -/
namespace ReactiveView

/-- The cell that a place belongs to. -/
def Handle.cell? : Handle → Option CellId
  | .object id | .leaf id _ => some id
  | .detached _ => none

namespace Store

variable {γ : Type} {s t : Store γ}

theorem find_object (plain : s.Plain) {id : CellId} {keys : List (String × CellId)}
    (object : s.content id = .object keys) (key : String) :
    s.find (.object id) key = match keys.lookup key with
      | none => .missing
      | some child => .cell child := by
  simp only [find, object]
  cases keys.lookup key with
  | none => rfl
  | some child =>
    dsimp only
    split
    · exact (plain child _ ‹_›).elim
    · rfl

/-- What is found at a place depends on the cell of the place alone. -/
theorem find_congr (plain : s.Plain) (plain' : t.Plain) {place : Handle}
    (same : ∀ id, place.cell? = some id → t.content id = s.content id) (key : String) :
    t.find place key = s.find place key := by
  cases place with
  | object id =>
    have same := same id rfl
    cases object : s.content id with
    | object keys => rw [find_object plain object, find_object plain' (same.trans object)]
    | leaf v => simp only [find, findInLeaf, same, object]
    | computed property => exact (plain id property object).elim
  | leaf id pointer => simp only [find, findInLeaf, same id rfl]
  | detached v => rfl

/-- A step comes to a member of an object and passes its cell, or stays in the cell of its place. -/
theorem step?_cases (plain : s.Plain) {place next : Handle} {key : String}
    (found : s.step? place key = some next) :
    (∃ id keys child, place = .object id ∧ s.content id = .object keys ∧
      keys.lookup key = some child ∧ s.passed? place key = some child ∧ next = s.handleOf child) ∨
    (s.passed? place key = none ∧ next.cell? = place.cell? ∧ ∀ id, next ≠ .object id) := by
  have within : ∀ id pointer, place.cell? = some id →
      s.find place key = s.findInLeaf id pointer key →
      s.passed? place key = none ∧ next.cell? = place.cell? ∧ ∀ id, next ≠ .object id := by
    intro id pointer own same
    obtain missing | inside := findInLeaf_cases s id pointer key
    · simp only [step?, same, missing] at found
      cases found
    · simp only [step?, same, inside, Option.some.injEq] at found
      subst found
      exact ⟨by simp only [passed?, same, inside], own.symm, fun _ h => by cases h⟩
  cases place with
  | object id =>
    cases object : s.content id with
    | object keys =>
      have place := find_object plain object key
      cases member : keys.lookup key with
      | none =>
        simp only [step?, place, member] at found
        cases found
      | some child =>
        simp only [member] at place
        simp only [step?, place, Option.some.injEq] at found
        exact .inl ⟨id, keys, child, rfl, object, member, by simp only [passed?, place], found.symm⟩
    | leaf v => exact .inr (within id "" rfl (by simp only [find, object]))
    | computed property => exact (plain id property object).elim
  | leaf id pointer => exact .inr (within id pointer rfl rfl)
  | detached v =>
    simp only [step?, find] at found
    cases member : v.member? key with
    | none => simp [member] at found
    | some w =>
      simp only [member, Option.some.injEq] at found
      subst found
      exact .inr ⟨by simp only [passed?, find, member], rfl, fun _ h => by cases h⟩

theorem cell?_handleOf (s : Store γ) (id : CellId) : (s.handleOf id).cell? = some id := by
  unfold handleOf
  split <;> rfl

theorem handleOf_object {id : CellId} {keys : List (String × CellId)}
    (object : s.content id = .object keys) : s.handleOf id = .object id := by
  simp only [handleOf, object]

theorem handleOf_eq_object {id other : CellId} (same : s.handleOf id = .object other) :
    other = id ∧ ∃ keys, s.content id = .object keys := by
  unfold handleOf at same
  split at same
  · rename_i keys object
    exact ⟨(Handle.object.inj same).symm, keys, object⟩
  · cases same

/-- A place within a value leads to places within the value only. -/
theorem step?_within (plain : s.Plain) {place next : Handle} {key : String}
    (within : ∀ id, place ≠ .object id) (found : s.step? place key = some next) :
    s.passed? place key = none ∧ ∀ id, next ≠ .object id := by
  obtain ⟨id, -, -, rfl, -⟩ | ⟨none, -, notObject⟩ := step?_cases plain found
  · exact (within id rfl).elim
  · exact ⟨none, notObject⟩

theorem follow_within (plain : s.Plain) {path : String} {keys : List String} {place last : Handle}
    (within : ∀ id, place ≠ .object id) (reached : s.follow path keys place = .ok last) :
    ∀ id, last ≠ .object id := by
  induction keys generalizing place with
  | nil => exact Except.ok.inj reached ▸ within
  | cons key rest ih =>
    simp only [follow] at reached
    cases found : s.step? place key with
    | none => simp [found] at reached
    | some next =>
      simp only [found] at reached
      exact ih (step?_within plain within found).2 reached

theorem passed?_within {place : Handle} {key : String} (within : ∀ id, place ≠ .object id) :
    s.passed? place key = none := by
  cases place with
  | object id => exact (within id rfl).elim
  | leaf id pointer =>
    obtain missing | inside := findInLeaf_cases s id pointer key
    · simp only [passed?, find, missing]
    · simp only [passed?, find, inside]
  | detached v =>
    cases member : v.member? key <;> simp only [passed?, find, member]

theorem cellsOn_within (plain : s.Plain) {keys : List String} {place : Handle}
    (within : ∀ id, place ≠ .object id) : s.cellsOn keys place = [] := by
  induction keys generalizing place with
  | nil => rfl
  | cons key rest ih =>
    simp only [cellsOn, passed?_within within]
    cases found : s.step? place key with
    | none => rfl
    | some next => simp [ih (step?_within plain within found).2]

theorem passed?_object (plain : s.Plain) {a : CellId} {keys : List (String × CellId)}
    (object : s.content a = .object keys) (key : String) :
    s.passed? (.object a) key = keys.lookup key := by
  simp only [passed?, find_object plain object]
  cases keys.lookup key <;> rfl

/-- A place within a leaf is one while the cell holds a leaf. -/
def Settled (s : Store γ) (place : Handle) : Prop :=
  ∀ id pointer, place = .leaf id pointer → ∃ v, s.content id = .leaf v

theorem settled_step? (plain : s.Plain) {place next : Handle} {key : String}
    (found : s.step? place key = some next) : s.Settled next := by
  rintro id pointer rfl
  cases content : s.content id with
  | leaf v => exact ⟨v, rfl⟩
  | computed property => exact (plain id property content).elim
  | object keys =>
    obtain ⟨_, _, child, -, -, -, -, same⟩ | ⟨none, own, -⟩ := step?_cases plain found
    · have own := (cell?_handleOf s child).symm.trans (congrArg Handle.cell? same).symm
      obtain rfl := Option.some.inj own
      cases same.trans (handleOf_object content)
    · cases place with
      | object a =>
        obtain rfl := Option.some.inj own
        cases member : keys.lookup key with
        | none => simp [step?, find_object plain content, member] at found
        | some child => simp [passed?_object plain content, member] at none
      | leaf a pointer =>
        obtain rfl := Option.some.inj own
        simp [step?, find, findInLeaf, content] at found
      | detached v => cases own

theorem settled_follow (plain : s.Plain) {path : String} {keys : List String} {place last : Handle}
    (settled : s.Settled place) (reached : s.follow path keys place = .ok last) :
    s.Settled last := by
  induction keys generalizing place with
  | nil => exact Except.ok.inj reached ▸ settled
  | cons key rest ih =>
    simp only [follow] at reached
    cases found : s.step? place key with
    | none => simp [found] at reached
    | some next =>
      simp only [found] at reached
      exact ih (settled_step? plain found) reached

theorem handleOf_leaf {id : CellId} (leaf : ∀ keys, s.content id ≠ .object keys) (other : CellId) :
    s.handleOf id ≠ .object other := by
  intro same
  obtain ⟨-, keys, object⟩ := handleOf_eq_object same
  exact leaf keys object

/-- Keys that lead from an object cell to an object cell are the keys of cells. -/
theorem descend?_of_follow (plain : s.Plain) {path : String} {keys : List String} {a b : CellId}
    (reached : s.follow path keys (.object a) = .ok (.object b)) :
    s.descend? a keys = some b := by
  induction keys generalizing a with
  | nil => exact congrArg some (Handle.object.inj (Except.ok.inj reached))
  | cons key rest ih =>
    simp only [follow] at reached
    cases found : s.step? (.object a) key with
    | none => simp [found] at reached
    | some next =>
      simp only [found] at reached
      obtain ⟨_, keys, child, same, object, member, -, rfl⟩ | ⟨-, -, notObject⟩ :=
        step?_cases plain found
      · obtain rfl := Handle.object.inj same
        simp only [descend?, child?, object, member, Option.bind_some]
        by_cases inner : ∃ inner, s.content child = .object inner
        · obtain ⟨inner, isObject⟩ := inner
          exact ih (handleOf_object isObject ▸ reached)
        · have leaf := handleOf_leaf fun members isObject => inner ⟨members, isObject⟩
          exact (follow_within plain leaf reached b rfl).elim
      · exact (follow_within plain notObject reached b rfl).elim

theorem step?_object (plain : s.Plain) {a b : CellId} {key : String}
    (found : s.step? (.object a) key = some (.object b)) :
    s.child? a key = some b ∧ ∃ keys, s.content b = .object keys := by
  obtain ⟨_, keys, child, same, object, member, -, place⟩ | ⟨-, -, notObject⟩ :=
    step?_cases plain found
  · obtain rfl := Handle.object.inj same
    obtain ⟨rfl, inner⟩ := handleOf_eq_object place.symm
    exact ⟨by simp only [child?, object, member], inner⟩
  · exact (notObject b rfl).elim

theorem descend?_append (s : Store γ) (keys : List String) (key : String) (a : CellId) :
    s.descend? a (keys ++ [key]) = (s.descend? a keys).bind (s.child? · key) := by
  induction keys generalizing a with
  | nil => cases found : s.child? a key <;> simp [descend?, found]
  | cons first rest ih =>
    simp only [List.cons_append, descend?]
    cases s.child? a first with
    | none => rfl
    | some child => exact ih child

theorem object_of_child? {a b : CellId} {key : String} (member : s.child? a key = some b) :
    ∃ keys, s.content a = .object keys ∧ keys.lookup key = some b := by
  unfold child? at member
  split at member
  · exact ⟨_, ‹_›, member⟩
  · cases member

theorem find_computed {a c : CellId} {key : String} {property : γ}
    (member : s.child? a key = some c) (content : s.content c = .computed property) :
    s.find (.object a) key = .computed c property := by
  obtain ⟨keys, object, member⟩ := object_of_child? member
  simp only [find, object, member, content]

theorem find_cell {a c : CellId} {key : String} (member : s.child? a key = some c)
    (data : ∀ property, s.content c ≠ .computed property) : s.find (.object a) key = .cell c := by
  obtain ⟨keys, object, member⟩ := object_of_child? member
  simp only [find, object, member]

/-- Where all objects were there before, so were the ways. -/
theorem descend?_before
    (objects : ∀ id keys, t.content id = .object keys → s.content id = .object keys) {a c : CellId}
    {keys : List String} (reached : t.descend? a keys = some c) : s.descend? a keys = some c := by
  induction keys generalizing a with
  | nil => exact reached
  | cons key rest ih =>
    obtain ⟨child, member, further⟩ := Option.bind_eq_some_iff.mp reached
    obtain ⟨fields, isObject, member⟩ := object_of_child? member
    simp only [descend?, child?, objects a fields isObject, member, Option.bind_some]
    exact ih further

theorem object_of_descend? {keys : List String} {a b : CellId} {members : List (String × CellId)}
    (reached : s.descend? a keys = some b) (object : s.content b = .object members) :
    ∃ keys, s.content a = .object keys := by
  cases keys with
  | nil => exact ⟨members, Option.some.inj reached ▸ object⟩
  | cons key rest =>
    obtain ⟨_, member, -⟩ := Option.bind_eq_some_iff.mp reached
    obtain ⟨keys, object, -⟩ := object_of_child? member
    exact ⟨keys, object⟩

/-- The way to a member of an object goes through objects. -/
theorem follow_of_descend? (plain : s.Plain) (path : String) {keys : List String} {a b : CellId}
    {members : List (String × CellId)} (reached : s.descend? a keys = some b)
    (object : s.content b = .object members) :
    s.follow path keys (.object a) = .ok (.object b) := by
  induction keys generalizing a with
  | nil => exact congrArg (Except.ok ∘ Handle.object) (Option.some.inj reached)
  | cons key rest ih =>
    obtain ⟨child, member, further⟩ := Option.bind_eq_some_iff.mp reached
    obtain ⟨inner, isObject⟩ := object_of_descend? further object
    obtain ⟨outer, objectOuter, member⟩ := object_of_child? member
    simp only [follow, step?, find_object plain objectOuter, member, handleOf_object isObject]
    exact ih further

theorem cellsOn_object (plain : s.Plain) {a : CellId} {keys : List (String × CellId)}
    (object : s.content a = .object keys) (key : String) (rest : List String) :
    s.cellsOn (key :: rest) (.object a) = match keys.lookup key with
      | none => []
      | some child => child :: s.cellsOn rest (s.handleOf child) := by
  simp only [cellsOn, passed?_object plain object, step?, find_object plain object]
  cases keys.lookup key <;> rfl

theorem cellsOn_notObject (plain : s.Plain) {a : CellId}
    (leaf : ∀ keys, s.content a ≠ .object keys) (keys : List String) :
    s.cellsOn keys (.object a) = [] := by
  cases keys with
  | nil => rfl
  | cons key rest =>
    have same : s.find (.object a) key = s.findInLeaf a "" key := by
      unfold find
      dsimp only
      split
      · exact (leaf _ ‹_›).elim
      · rfl
    have none : s.passed? (.object a) key = none := by
      obtain missing | inside := findInLeaf_cases s a "" key
      · simp only [passed?, same, missing]
      · simp only [passed?, same, inside]
    simp only [cellsOn, none]
    cases found : s.step? (.object a) key with
    | none => rfl
    | some next =>
      obtain ⟨_, keys, _, place, object, -⟩ | ⟨-, -, notObject⟩ := step?_cases plain found
      · exact (leaf keys (Handle.object.inj place ▸ object)).elim
      · simp [cellsOn_within plain notObject]

/-- The cells on the way along keys are cells of the store. -/
theorem cellsOn_inside (plain : s.Plain) (sound : s.Sound) {keys : List String} {place : Handle}
    {id : CellId} (passed : id ∈ s.cellsOn keys place) : id < s.cells.size := by
  induction keys generalizing place with
  | nil => cases passed
  | cons key rest ih =>
    simp only [cellsOn, List.mem_append, Option.mem_toList] at passed
    cases found : s.step? place key with
    | none =>
      have none : s.passed? place key = none := by
        simp only [step?] at found
        unfold passed?
        split at found <;> simp_all
      simp [found, none] at passed
    | some next =>
      simp only [found, Option.map_some, Option.getD_some] at passed
      refine passed.elim (fun here => ?_) ih
      obtain ⟨a, members, child, -, object, member, same, -⟩ | ⟨none, -⟩ := step?_cases plain found
      · obtain rfl := Option.some.inj (same.symm.trans here)
        exact (sound.members a members object _ (mem_of_lookup member)).1
      · cases none.symm.trans here

end Store
end ReactiveView
