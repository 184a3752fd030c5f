import ReactiveView.Proofs.Store.Tree
import ReactiveView.Proofs.Value.Place

/-! The snapshot of a tree of cells. The snapshot of an object has the snapshots of its members as
fields, and data that is laid out is its own snapshot. Every place on a path stands for a value of
the snapshot, so a path reads in the store what it reads in the snapshot. -/
namespace ReactiveView.Store

variable {γ : Type} {s t : Store γ}

section Fields

theorem snapshotTo_leaf {id : CellId} {v : Value} (leaf : s.content id = .leaf v) (levels : Nat) :
    s.snapshotTo levels id = v := by
  cases levels <;> rw [snapshotTo, leaf]

theorem snapshotTo_object (plain : s.Plain) {id : CellId} {keys : List (String × CellId)}
    (object : s.content id = .object keys) (levels : Nat) : s.snapshotTo (levels + 1) id =
      .ofPairs (keys.map fun member => (member.1, s.snapshotTo levels member.2)) := by
  rw [snapshotTo, object]
  dsimp only
  congr 1
  rw [← List.filterMap_eq_map]
  refine List.filterMap_congr fun member _ => ?_
  split
  · exact (plain member.2 _ ‹_›).elim
  · rfl

/-- More levels than the number of a cell make no difference, since numbers fall on the way in. -/
theorem snapshotTo_levels (tree : s.Tree) {id : CellId} {levels levels' : Nat}
    (enough : id < levels) (enough' : id < levels') :
    s.snapshotTo levels id = s.snapshotTo levels' id := by
  induction levels generalizing id levels' with
  | zero => cases enough
  | succ levels ih =>
    cases levels' with
    | zero => cases enough'
    | succ levels' =>
      cases content : s.content id with
      | computed property => exact (tree.plain id property content).elim
      | leaf v => rw [snapshotTo_leaf content, snapshotTo_leaf content]
      | object keys =>
        rw [snapshotTo_object tree.plain content, snapshotTo_object tree.plain content]
        congr 1
        refine List.map_congr_left fun member member_in => ?_
        cases inner : s.content member.2 with
        | computed property => exact (tree.plain member.2 property inner).elim
        | leaf v => rw [snapshotTo_leaf inner, snapshotTo_leaf inner]
        | object fields =>
          have below := tree.sound.nested id keys content member member_in fields inner
          rw [ih (by lia : member.2 < levels) (by lia : member.2 < levels')]

theorem snapshotOf_leaf {id : CellId} {v : Value} (leaf : s.content id = .leaf v) :
    s.snapshotOf id = v :=
  snapshotTo_leaf leaf _

theorem snapshotOf_object (tree : s.Tree) {id : CellId} {keys : List (String × CellId)}
    (object : s.content id = .object keys) : s.snapshotOf id =
      .ofPairs (keys.map fun member => (member.1, s.snapshotOf member.2)) := by
  have inside : id < s.cells.size := inside_of_object object
  obtain ⟨levels, size⟩ := Nat.exists_eq_add_one.mpr (Nat.lt_of_le_of_lt (Nat.zero_le id) inside)
  have whole : s.snapshotOf id = s.snapshotTo (levels + 1) id := by rw [snapshotOf, size]
  rw [whole, snapshotTo_object tree.plain object]
  congr 1
  refine List.map_congr_left fun member member_in => ?_
  cases inner : s.content member.2 with
  | computed property => exact (tree.plain member.2 property inner).elim
  | leaf v => rw [snapshotTo_leaf inner, snapshotOf_leaf inner]
  | object fields =>
    have below := tree.sound.nested id keys object member member_in fields inner
    rw [snapshotOf, snapshotTo_levels tree (by lia : member.2 < levels)
      (by lia : member.2 < s.cells.size)]

/-- The fields of the snapshot of an object. -/
def members (s : Store γ) (keys : List (String × CellId)) : List (String × Value) :=
  Fields.ofPairs (keys.map fun member => (member.1, s.snapshotOf member.2))

theorem ascending_members (s : Store γ) (keys : List (String × CellId)) :
    Fields.Ascending (s.members keys) :=
  Fields.ascending_ofPairs _

theorem lookup_members (s : Store γ) {keys : List (String × CellId)}
    (distinct : (keys.map (·.1)).Nodup) (key : String) :
    (s.members keys).lookup key = (keys.lookup key).map s.snapshotOf := by
  rw [members, Fields.lookup_ofPairs (by simpa [Function.comp_def] using distinct), lookup_map]

/-- The member of the snapshot of an object that a key names. -/
theorem step?_snapshotOf (tree : s.Tree) {id : CellId} {keys : List (String × CellId)}
    (object : s.content id = .object keys) (key : String) :
    (s.snapshotOf id).step? key = (keys.lookup key).map s.snapshotOf := by
  rw [snapshotOf_object tree object]
  exact lookup_members s (tree.branching.distinct id keys object) key

end Fields

section LayOut

theorem ofPairs_of_ascending {fields : List (String × Value)}
    (ascending : Fields.Ascending fields) :
    Fields.ofPairs fields = fields :=
  (Fields.ascending_ofPairs fields).ext ascending fun key =>
    Fields.lookup_ofPairs ascending.distinct key

mutual

/-- A value that is laid out among the cells of a store is the snapshot of its cell. -/
theorem snapshotOf_layOut (tree : s.Tree) (cells : Array (Cell γ)) :
    ∀ v : Value, v.Canonical →
      (∀ id, id < (layOut cells v).2.size → s.content id = contentOf (layOut cells v).2 id) →
      s.snapshotOf (layOut cells v).1 = v
  | .object fields, canonical, agrees => by
    simp only [layOut, Array.size_push] at agrees ⊢
    have object : s.content (layOutFields cells fields).2.size =
        .object (layOutFields cells fields).1 := by
      rw [agrees _ (Nat.lt_succ_self _), contentOf_push, if_pos rfl]
    rw [snapshotOf_object tree object, snapshotOf_layOutFields tree cells fields canonical.2]
    · exact congrArg Value.object (ofPairs_of_ascending canonical.1)
    · intro id inside
      rw [agrees id (Nat.lt_succ_of_lt inside), contentOf_push, if_neg (Nat.ne_of_lt inside)]
  | .null, _, agrees | .bool _, _, agrees | .number _, _, agrees | .string _, _, agrees
  | .array _, _, agrees => by
    simp only [layOut, Array.size_push] at agrees ⊢
    refine snapshotOf_leaf ?_
    rw [agrees _ (Nat.lt_succ_self _), contentOf_push, if_pos rfl]

theorem snapshotOf_layOutFields (tree : s.Tree) (cells : Array (Cell γ)) :
    ∀ fields : List (String × Value), Value.CanonicalFields fields →
      (∀ id, id < (layOutFields cells fields).2.size →
        s.content id = contentOf (layOutFields cells fields).2 id) →
      (layOutFields cells fields).1.map (fun member => (member.1, s.snapshotOf member.2)) = fields
  | [], _, _ => rfl
  | (key, v) :: rest, canonical, agrees => by
    obtain ⟨more, keeps⟩ := layOutFields_frame (layOut cells v).2 rest
    simp only [layOutFields] at agrees ⊢
    rw [List.map_cons, snapshotOf_layOut tree cells v canonical.1,
      snapshotOf_layOutFields tree (layOut cells v).2 rest canonical.2 agrees]
    intro id inside
    rw [agrees id (Nat.lt_of_lt_of_le inside more), keeps id inside]

end

/-- Data that is laid out is its own snapshot. -/
theorem snapshot_ofValue {fields : List (String × Value)}
    (canonical : (Value.object fields).Canonical) :
    (ofValue (.object fields) : Store γ).snapshot = .object fields :=
  snapshotOf_layOut (tree_ofValue canonical) #[] (.object fields) canonical fun _ _ => rfl

end LayOut

section Reading

/-- The place is there: its cell is an object, or it holds a leaf in which the pointer leads
somewhere. -/
def Stands (s : Store γ) : Handle → Prop
  | .object id => ∃ keys, s.content id = .object keys
  | .leaf id pointer => ∃ v w, s.content id = .leaf v ∧ v.pointer? pointer = some w
  | .detached _ => False

theorem stands_handleOf (plain : s.Plain) (id : CellId) : s.Stands (s.handleOf id) := by
  unfold handleOf
  split
  · exact ⟨_, ‹_›⟩
  · cases content : s.content id with
    | leaf v => exact ⟨v, v, content, Value.pointer?_empty v⟩
    | computed property => exact (plain id property content).elim
    | object keys => exact (‹∀ keys, s.content id = .object keys → False› keys content).elim

theorem valueOf_handleOf (s : Store γ) (id : CellId) :
    s.valueOf (s.handleOf id) = s.snapshotOf id := by
  cases content : s.content id with
  | leaf v =>
    simp only [handleOf, content, valueOf, Value.pointer?_empty, Option.getD_some,
      snapshotOf_leaf content]
  | computed property => simp only [handleOf, content, valueOf]
  | object keys => simp only [handleOf, content, valueOf]

theorem valueOf_leaf {id : CellId} {v w : Value} {pointer : String} (leaf : s.content id = .leaf v)
    (found : v.pointer? pointer = some w) : s.valueOf (.leaf id pointer) = w := by
  simp only [valueOf, leaf, found, Option.getD_some]

theorem pointer?_child (v : Value) (pointer key : String) :
    v.pointer? (Pointer.child pointer key) = (v.pointer? pointer).bind (Value.step? key) := by
  unfold Value.pointer?
  rw [Pointer.steps?_child]
  cases Pointer.steps? pointer with
  | none => rfl
  | some steps =>
    simp only [Option.map_some, Option.bind_some, Value.at?_append]
    exact congrArg _ (funext fun w => Value.at?_singleton w key)

/-- What a key finds in a leaf, given the value at the pointer. -/
theorem find_leaf {id : CellId} {v w : Value} {pointer : String} (leaf : s.content id = .leaf v)
    (found : v.pointer? pointer = some w) (key : String) :
    s.find (.leaf id pointer) key = match w.step? key with
      | some _ => .inside (.leaf id (Pointer.child pointer key))
      | none => .missing := by
  simp only [find, findInLeaf, leaf, pointer?_child, found, Option.bind_some]
  cases w.step? key <;> rfl

theorem step?_of_object (plain : s.Plain) {id : CellId} {keys : List (String × CellId)}
    (object : s.content id = .object keys) (key : String) :
    s.step? (.object id) key = (keys.lookup key).map s.handleOf := by
  simp only [step?, find_object plain object]
  cases keys.lookup key <;> rfl

/-- A step from a place comes to the member of its value, and the member stands. -/
theorem step?_value (tree : s.Tree) {place : Handle} (stands : s.Stands place) (key : String) :
    (s.step? place key).map s.valueOf = (s.valueOf place).step? key ∧
      ∀ next, s.step? place key = some next → s.Stands next := by
  cases place with
  | object id =>
    obtain ⟨keys, object⟩ := stands
    rw [step?_of_object tree.plain object, Option.map_map]
    refine ⟨?_, fun next found => ?_⟩
    · rw [show s.valueOf (.object id) = s.snapshotOf id from rfl, step?_snapshotOf tree object]
      exact congrArg (Option.map · (keys.lookup key)) (funext (valueOf_handleOf s))
    · obtain ⟨child, -, rfl⟩ := Option.map_eq_some_iff.mp found
      exact stands_handleOf tree.plain child
  | leaf id pointer =>
    obtain ⟨v, w, leaf, found⟩ := stands
    have nested : v.pointer? (Pointer.child pointer key) = w.step? key := by
      rw [pointer?_child, found, Option.bind_some]
    simp only [step?, find_leaf leaf found, valueOf_leaf leaf found]
    cases member : w.step? key with
    | none =>
      refine ⟨rfl, ?_⟩
      rintro next none
      cases none
    | some u =>
      have there : v.pointer? (Pointer.child pointer key) = some u := nested.trans member
      refine ⟨congrArg some (valueOf_leaf leaf there), fun next same => ?_⟩
      obtain rfl := Option.some.inj same
      exact ⟨v, u, leaf, there⟩
  | detached v => cases stands

/-- Keys lead to the place of the value that they lead to in the snapshot. -/
theorem follow_value (tree : s.Tree) (path : String) (keys : List String) {place : Handle}
    (stands : s.Stands place) :
    (s.follow path keys place).map s.valueOf = (s.valueOf place).follow path keys ∧
      ∀ last, s.follow path keys place = .ok last → s.Stands last := by
  induction keys generalizing place with
  | nil => exact ⟨rfl, fun last same => Except.ok.inj same ▸ stands⟩
  | cons key rest ih =>
    obtain ⟨value, further⟩ := step?_value tree stands key
    simp only [follow, Value.follow, ← value]
    cases step : s.step? place key with
    | none =>
      refine ⟨rfl, ?_⟩
      rintro last failed
      cases failed
    | some next => exact ih (further next step)

theorem stands_root (tree : s.Tree) : s.Stands (.object s.root) :=
  tree.sound.root_object

end Reading

section Paths

variable {κ : Type} {s : Store (Computed κ)}

theorem isNull_value (tree : s.Tree) {place : Handle} (stands : s.Stands place) :
    Scope.isNull s place = (s.valueOf place).isNull := by
  cases place with
  | object id =>
    obtain ⟨keys, object⟩ := stands
    rw [show s.valueOf (.object id) = s.snapshotOf id from rfl, snapshotOf_object tree object]
    rfl
  | leaf id pointer => rfl
  | detached v => rfl

/-- A path reads as it reads in the snapshot. -/
theorem read_snapshot (tree : s.Tree) (path : String) : s.read path = s.snapshot.read path := by
  obtain ⟨value, stands⟩ := follow_value tree path (Path.pieces path).dropLast (stands_root tree)
  cases blank : Path.isEmpty path with
  | true =>
    rw [read_blank blank]
    simp only [Value.read, Path.segments, blank]
    rfl
  | false =>
    rw [read_eq blank, Value.read_eq blank]
    cases reached : s.follow path (Path.pieces path).dropLast (.object s.root) with
    | error e =>
      have failed : s.snapshot.follow path (Path.pieces path).dropLast = .error e :=
        value.symm.trans (congrArg (Except.map s.valueOf) reached)
      simp only [Value.readKeys, bind, Except.bind, failed]
    | ok parent =>
      have there : s.snapshot.follow path (Path.pieces path).dropLast = .ok (s.valueOf parent) :=
        value.symm.trans (congrArg (Except.map s.valueOf) reached)
      have parentStands := stands parent reached
      rw [Value.readKeys_of_follow there, ← isNull_value tree parentStands,
        ← (step?_value tree parentStands _).1]
      dsimp only
      cases s.step? parent ((Path.pieces path).getLastD "") <;> rfl

end Paths
end ReactiveView.Store
