import ReactiveView.Proofs.Store.Places

/-! Overwriting one cell of a plain store. A path that does not pass the cell is read as before,
unless it names an object, which may hold the cell further in; and a path to the cell reads as the
value written. A cell that is overwritten holds a leaf from then on, so paths pass fewer cells. -/
namespace ReactiveView.Store

section Access

variable {γ : Type} {s t : Store γ} {c : CellId} {v : Value}

/-- All is as before, except that one cell holds a leaf. -/
structure Overwrites (s t : Store γ) (c : CellId) (v : Value) : Prop where
  root : t.root = s.root
  size : t.cells.size = s.cells.size
  others : ∀ id, id ≠ c → t.content id = s.content id
  written : t.content c = .leaf v

theorem overwrites_setContent (inside : c < s.cells.size) (v : Value) :
    Overwrites s (s.setContent c (.leaf v)) c v :=
  ⟨rfl, size_setContent s c _, fun _ other => content_setContent_of_ne other _,
    content_setContent_self inside _⟩

theorem Overwrites.sameData {u : Store γ} (wrote : Overwrites s t c v) (same : SameData t u) :
    Overwrites s u c v :=
  ⟨same.root.trans wrote.root, same.size.trans wrote.size,
    fun id other => (same.content id).trans (wrote.others id other),
    (same.content c).trans wrote.written⟩

theorem Overwrites.object_before (wrote : Overwrites s t c v) {id : CellId}
    {keys : List (String × CellId)} (object : t.content id = .object keys) :
    s.content id = .object keys ∧ id ≠ c := by
  by_cases same : id = c
  · cases (same ▸ object).symm.trans wrote.written
  · exact ⟨(wrote.others id same).symm.trans object, same⟩

theorem Overwrites.plain (wrote : Overwrites s t c v) (plain : s.Plain) : t.Plain := by
  intro id property computed
  by_cases same : id = c
  · cases (same ▸ computed).symm.trans wrote.written
  · exact plain id property ((wrote.others id same).symm.trans computed)

theorem Overwrites.sound (wrote : Overwrites s t c v) (sound : s.Sound) (notRoot : c ≠ s.root) :
    t.Sound := by
  obtain ⟨keys, root⟩ := sound.root_object
  refine ⟨by simpa [wrote.root, wrote.size] using sound.root_inside,
    ⟨keys, (congrArg t.content wrote.root).trans ((wrote.others _ (Ne.symm notRoot)).trans root)⟩,
    fun id keys found => ?_, fun id keys found member member_in inner inside =>
      sound.nested id keys (wrote.object_before found).1 member member_in inner
        (wrote.object_before inside).1⟩
  simpa [wrote.root, wrote.size] using sound.members id keys (wrote.object_before found).1

namespace Overwrites

variable (wrote : Overwrites s t c v) (plain : s.Plain)
include wrote plain

omit plain in
theorem handleOf {id : CellId} (other : id ≠ c) : t.handleOf id = s.handleOf id := by
  simp only [Store.handleOf, wrote.others id other]

/-- After the write paths pass no other cells than before. -/
theorem mem_cellsOn {keys : List String} {place : Handle} {id : CellId}
    (passed : id ∈ t.cellsOn keys place) : id ∈ s.cellsOn keys place := by
  induction keys generalizing place with
  | nil => cases passed
  | cons key rest ih =>
    have plain' := wrote.plain plain
    by_cases object : ∃ a members, place = .object a ∧ t.content a = .object members
    · obtain ⟨a, members, rfl, object⟩ := object
      obtain ⟨before, -⟩ := wrote.object_before object
      rw [cellsOn_object plain' object] at passed
      rw [cellsOn_object plain before]
      cases found : members.lookup key with
      | none => simp [found] at passed
      | some child =>
        simp only [found, List.mem_cons] at passed ⊢
        refine passed.imp_right fun later => ?_
        by_cases same : child = c
        · have leaf := handleOf_leaf fun keys (object : t.content child = .object keys) => by
            cases (same ▸ object).symm.trans wrote.written
          rw [cellsOn_within plain' leaf] at later
          cases later
        · exact ih (wrote.handleOf same ▸ later)
    · by_cases cell : ∃ a, place = .object a
      · obtain ⟨a, rfl⟩ := cell
        rw [cellsOn_notObject plain' fun members isObject => object ⟨a, members, rfl, isObject⟩]
          at passed
        cases passed
      · rw [cellsOn_within plain' fun a same => cell ⟨a, same⟩] at passed
        cases passed

theorem step? {place : Handle} {key : String} (elsewhere : place.cell? ≠ some c)
    (notPassed : s.passed? place key ≠ some c) : t.step? place key = s.step? place key := by
  have same : t.find place key = s.find place key :=
    find_congr plain (wrote.plain plain)
      (fun id own => wrote.others id fun same => elsewhere (same ▸ own)) key
  simp only [Store.step?, same]
  cases found : s.find place key with
  | cell id =>
    have other : id ≠ c := fun same => notPassed (by simp only [passed?, found, same])
    simp only [wrote.handleOf other]
  | _ => rfl

/-- Keys that do not pass the written cell lead where they led before. -/
theorem follow (path : String) {keys : List String} {place : Handle}
    (elsewhere : place.cell? ≠ some c) (notPassed : c ∉ s.cellsOn keys place) :
    t.follow path keys place = s.follow path keys place ∧
      ∀ last, s.follow path keys place = .ok last → last.cell? ≠ some c := by
  induction keys generalizing place with
  | nil => exact ⟨rfl, fun last same => Except.ok.inj same ▸ elsewhere⟩
  | cons key rest ih =>
    simp only [cellsOn, List.mem_append, not_or] at notPassed
    have first : s.passed? place key ≠ some c := fun same => notPassed.1 (by simp [same])
    simp only [Store.follow, wrote.step? plain elsewhere first]
    cases found : s.step? place key with
    | none => exact ⟨rfl, fun last same => by cases same⟩
    | some next =>
      have notPassed := notPassed.2
      simp only [found, Option.map_some, Option.getD_some] at notPassed
      refine ih ?_ notPassed
      obtain ⟨_, _, child, -, -, -, passed, rfl⟩ | ⟨-, own, -⟩ := step?_cases plain found
      · rw [cell?_handleOf, ← passed]
        exact first
      · rwa [own]

omit plain in
theorem valueOf {place : Handle} (elsewhere : place.cell? ≠ some c) (settled : s.Settled place)
    (notObject : ∀ id, place ≠ .object id) : t.valueOf place = s.valueOf place := by
  cases place with
  | object id => exact (notObject id rfl).elim
  | leaf id pointer =>
    obtain ⟨w, leaf⟩ := settled id pointer rfl
    have same := wrote.others id fun same => elsewhere (congrArg some same)
    simp only [Store.valueOf, same, leaf]
  | detached v => rfl

omit plain in
/-- The way to a member is not cut off by writing the member. -/
theorem descend? (sound : s.Sound) {keys : List String} {a b : CellId}
    {members : List (String × CellId)} (reached : s.descend? a keys = some b)
    (object : s.content b = .object members)
    (below : ∀ inner, s.content c = .object inner → c < b) :
    t.descend? a keys = some b ∧ ∀ inner, s.content a = .object inner → b ≤ a := by
  induction keys generalizing a with
  | nil => exact ⟨reached, fun _ _ => Nat.le_of_eq (Option.some.inj reached).symm⟩
  | cons key rest ih =>
    obtain ⟨child, member, further⟩ := Option.bind_eq_some_iff.mp reached
    obtain ⟨inner, isObject⟩ := object_of_descend? further object
    obtain ⟨outer, objectOuter, member⟩ := object_of_child? member
    obtain ⟨later, bound⟩ := ih further
    have falls : b < a := Nat.lt_of_le_of_lt (bound inner isObject)
      (sound.nested a outer objectOuter _ (mem_of_lookup member) inner isObject)
    have other : a ≠ c := by
      rintro rfl
      exact Nat.lt_asymm falls (below outer objectOuter)
    refine ⟨?_, fun _ _ => Nat.le_of_lt falls⟩
    simp only [Store.descend?, child?, wrote.others a other, objectOuter, member, Option.bind_some,
      later]

end Overwrites
end Access

section Paths

variable {κ : Type} {s t : Store (Computed κ)} {c : CellId} {v : Value}

/-- The path names a cell that holds an object. -/
def NamesObject (s : Store (Computed κ)) (path : String) : Prop :=
  ∃ id keys, s.cellAt? path = some id ∧ s.content id = .object keys

theorem SameData.namesObject (same : SameData s t) (path : String) :
    t.NamesObject path ↔ s.NamesObject path := by
  simp only [NamesObject, cellAt?, same.root, same.descend?, same.content]

theorem cellAt?_eq (s : Store (Computed κ)) (path : String) : s.cellAt? path =
    (s.descend? s.root (Path.pieces path).dropLast).bind
      (s.child? · ((Path.pieces path).getLastD "")) := by
  rw [cellAt?, ← descend?_append, Path.dropLast_append_getLastD]

/-- A path names an object if it leads to one. -/
theorem namesObject_iff (plain : s.Plain) (path : String) : s.NamesObject path ↔
    ∃ parent id, s.follow path (Path.pieces path).dropLast (.object s.root) = .ok parent ∧
      s.step? parent ((Path.pieces path).getLastD "") = some (.object id) := by
  constructor
  · rintro ⟨id, keys, found, object⟩
    rw [cellAt?_eq] at found
    obtain ⟨parent, reached, member⟩ := Option.bind_eq_some_iff.mp found
    obtain ⟨outer, isObject, member⟩ := object_of_child? member
    refine ⟨.object parent, id, follow_of_descend? plain path reached isObject, ?_⟩
    simp only [step?, find_object plain isObject, member, handleOf_object object]
  · rintro ⟨parent, id, reached, found⟩
    obtain ⟨a, -, -, rfl, -⟩ | ⟨-, -, notObject⟩ := step?_cases plain found
    · obtain ⟨member, keys, object⟩ := step?_object plain found
      refine ⟨id, keys, ?_, object⟩
      rw [cellAt?_eq, descend?_of_follow plain reached]
      exact member
    · exact (notObject id rfl).elim

theorem valueOf_object {id : CellId} {keys : List (String × CellId)}
    (object : s.content id = .object keys) : ∃ fields, s.valueOf (.object id) = .object fields := by
  rw [valueOf, snapshotOf]
  cases s.cells.size <;> rw [snapshotTo, object]
  · exact ⟨_, rfl⟩
  · exact ⟨_, rfl⟩

theorem read_eq {path : String} (notBlank : Path.isEmpty path = false) : s.read path =
    match s.follow path (Path.pieces path).dropLast (.object s.root) with
    | .error e => .error e
    | .ok parent =>
      match s.step? parent ((Path.pieces path).getLastD "") with
      | some place => .ok (s.valueOf place)
      | none =>
        if Scope.isNull s parent then .error (.unresolvedPath path ((Path.pieces path).getLastD ""))
        else .ok .null := by
  simp only [read, Path.segments, notBlank, Bool.false_eq_true, if_false, bind, Except.bind]
  cases s.follow path (Path.pieces path).dropLast (.object s.root) <;> rfl

theorem read_blank {path : String} (blank : Path.isEmpty path = true) :
    s.read path = .error .emptyPath := by
  simp only [read, Path.segments, blank]
  rfl

/-- A path to a leaf reads as what the leaf holds, and one to an object as an object. -/
theorem read_cellAt? (plain : s.Plain) {path : String} (notBlank : Path.isEmpty path = false)
    {id : CellId} (found : s.cellAt? path = some id) :
    s.read path = .ok (s.valueOf (s.handleOf id)) := by
  rw [cellAt?_eq] at found
  obtain ⟨parent, reached, member⟩ := Option.bind_eq_some_iff.mp found
  obtain ⟨outer, object, member⟩ := object_of_child? member
  rw [read_eq notBlank, follow_of_descend? plain path reached object]
  simp only [step?, find_object plain object, member]

namespace Overwrites

variable (wrote : Overwrites s t c v) (plain : s.Plain)
include wrote

include plain

theorem mem_cellsAt {path : String} {id : CellId} (passed : id ∈ t.cellsAt path) :
    id ∈ s.cellsAt path := by
  rw [cellsAt, wrote.root] at passed
  exact wrote.mem_cellsOn plain passed

/-- A path that does not pass the written cell leads through the places it led through before. -/
theorem way_elsewhere (notRoot : c ≠ s.root) {path : String} (elsewhere : c ∉ s.cellsAt path) :
    t.follow path (Path.pieces path).dropLast (.object t.root) =
      s.follow path (Path.pieces path).dropLast (.object s.root) ∧
    ∀ parent, s.follow path (Path.pieces path).dropLast (.object s.root) = .ok parent →
      parent.cell? ≠ some c ∧ s.passed? parent ((Path.pieces path).getLastD "") ≠ some c ∧
      t.step? parent ((Path.pieces path).getLastD "") =
        s.step? parent ((Path.pieces path).getLastD "") := by
  rw [cellsAt, ← Path.dropLast_append_getLastD, cellsOn_append s path, List.mem_append, not_or]
    at elsewhere
  obtain ⟨notOnWay, notLast⟩ := elsewhere
  have rootElsewhere : (Handle.object s.root).cell? ≠ some c :=
    fun same => notRoot (Option.some.inj same).symm
  obtain ⟨way, lasts⟩ := wrote.follow plain path rootElsewhere notOnWay
  refine ⟨wrote.root ▸ way, fun parent reached => ?_⟩
  have outside := lasts parent reached
  simp only [reached, cellsOn_singleton, Option.mem_toList] at notLast
  exact ⟨outside, notLast, wrote.step? plain outside notLast⟩

/-- A path to an object that does not pass the written cell leads to that object still. -/
theorem namesObject_elsewhere (notRoot : c ≠ s.root) {path : String}
    (elsewhere : c ∉ s.cellsAt path) (names : s.NamesObject path) : t.NamesObject path := by
  obtain ⟨way, places⟩ := wrote.way_elsewhere plain notRoot elsewhere
  obtain ⟨parent, id, reached, found⟩ := (namesObject_iff plain path).mp names
  exact (namesObject_iff (wrote.plain plain) path).mpr
    ⟨parent, id, way.trans reached, (places parent reached).2.2.trans found⟩

/-- A path that does not pass the written cell and leads to no object reads as before. -/
theorem read_elsewhere (notRoot : c ≠ s.root) {path : String} (elsewhere : c ∉ s.cellsAt path)
    (notObject : ¬ s.NamesObject path) : t.read path = s.read path := by
  cases blank : Path.isEmpty path with
  | true => exact (read_blank blank).trans (read_blank blank).symm
  | false =>
    obtain ⟨way, places⟩ := wrote.way_elsewhere plain notRoot elsewhere
    rw [read_eq blank, read_eq blank, way]
    cases reached : s.follow path (Path.pieces path).dropLast (.object s.root) with
    | error e => rfl
    | ok parent =>
      obtain ⟨outside, notLast, step⟩ := places parent reached
      simp only [step]
      cases found : s.step? parent ((Path.pieces path).getLastD "") with
      | none =>
        have settled : s.Settled parent :=
          settled_follow plain (fun id pointer same => by cases same) reached
        have same : Scope.isNull t parent = Scope.isNull s parent := by
          cases parent with
          | object id => rfl
          | leaf id pointer =>
            simp only [Scope.isNull, wrote.valueOf outside settled fun _ same => by cases same]
          | detached w => rfl
        simp only [same]
      | some place =>
        have away : place.cell? ≠ some c := by
          obtain ⟨_, _, child, -, -, -, passed, rfl⟩ | ⟨-, own, -⟩ := step?_cases plain found
          · rw [cell?_handleOf, ← passed]
            exact notLast
          · rwa [own]
        have notNamed : ∀ id, place ≠ .object id := fun id same =>
          notObject ((namesObject_iff plain path).mpr ⟨parent, id, reached, same ▸ found⟩)
        exact congrArg _ (wrote.valueOf away (settled_step? plain found) notNamed)

/-- A path to the written cell reads as the value written. -/
theorem read_written (sound : s.Sound) {path : String} (notBlank : Path.isEmpty path = false)
    (found : s.cellAt? path = some c) : t.read path = .ok v := by
  have plain' := wrote.plain plain
  rw [cellAt?_eq] at found
  obtain ⟨parent, reached, member⟩ := Option.bind_eq_some_iff.mp found
  obtain ⟨outer, object, member⟩ := object_of_child? member
  have below : ∀ inner, s.content c = .object inner → c < parent :=
    sound.nested parent outer object _ (mem_of_lookup member)
  have still := (wrote.descend? sound reached object below).1
  have other : parent ≠ c := by
    rintro rfl
    exact Nat.lt_irrefl _ (below outer object)
  have there : t.cellAt? path = some c := by
    rw [cellAt?_eq, wrote.root, still, Option.bind_some, child?, wrote.others parent other, object]
    exact member
  rw [read_cellAt? plain' notBlank there]
  simp only [Store.handleOf, wrote.written, Store.valueOf, Value.pointer?_empty, Option.getD_some]

end Overwrites
end Paths
end ReactiveView.Store
