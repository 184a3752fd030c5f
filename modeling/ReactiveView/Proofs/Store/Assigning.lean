import ReactiveView.Proofs.Store.Snapshot

/-! Writing to a tree of cells. Each cell is reached along one list of keys only, so a change
at a cell is a change at one place of the snapshot. Hence writing a member of a place in the
store, whether by a new cell, over a cell or inside a leaf, is writing the member of a value in
the snapshot. -/
namespace ReactiveView.Store

variable {γ : Type} {s t : Store γ} {x : CellId}

section Ways

/-- An object further in has a smaller number. -/
theorem descend?_lt (sound : s.Sound) {key : String} {rest : List String} {a b : CellId}
    {inner : List (String × CellId)} (reached : s.descend? a (key :: rest) = some b)
    (object : s.content b = .object inner) : b < a := by
  induction rest generalizing key a with
  | nil =>
    obtain ⟨child, member, same⟩ := Option.bind_eq_some_iff.mp reached
    obtain rfl := Option.some.inj same
    obtain ⟨outer, isObject, member⟩ := object_of_child? member
    exact sound.nested a outer isObject _ (mem_of_lookup member) inner object
  | cons next rest ih =>
    obtain ⟨child, member, further⟩ := Option.bind_eq_some_iff.mp reached
    obtain ⟨outer, isObject, member⟩ := object_of_child? member
    obtain ⟨between, isInner⟩ := object_of_descend? further object
    exact Nat.lt_trans (ih further)
      (sound.nested a outer isObject _ (mem_of_lookup member) between isInner)

theorem descend?_cons_ne (sound : s.Sound) {key : String} {rest : List String} {a : CellId} :
    s.descend? a (key :: rest) ≠ some a := by
  intro around
  obtain ⟨child, member, -⟩ := Option.bind_eq_some_iff.mp around
  obtain ⟨outer, object, -⟩ := object_of_child? member
  exact Nat.lt_irrefl a (descend?_lt sound around object)

/-- One way leads from a cell to a cell. -/
theorem descend?_injective (tree : s.Tree) {a : CellId} {keys others : List String}
    (reached : s.descend? a keys = some x) (reached' : s.descend? a others = some x) :
    keys = others := by
  induction keys using List.reverseRecOn generalizing x others with
  | nil =>
    obtain rfl := Option.some.inj reached
    cases others with
    | nil => rfl
    | cons key rest => exact (descend?_cons_ne tree.sound reached').elim
  | append_singleton before key ih =>
    obtain rfl | ⟨before', key', rfl⟩ := List.eq_nil_or_concat others
    · obtain rfl := Option.some.inj reached'
      cases before with
      | nil => exact (descend?_cons_ne tree.sound reached).elim
      | cons first rest => exact (descend?_cons_ne tree.sound reached).elim
    · rw [List.concat_eq_append, descend?_append] at reached'
      rw [descend?_append] at reached
      obtain ⟨parent, way, member⟩ := Option.bind_eq_some_iff.mp reached
      obtain ⟨parent', way', member'⟩ := Option.bind_eq_some_iff.mp reached'
      obtain ⟨fields, object, member⟩ := object_of_child? member
      obtain ⟨fields', object', member'⟩ := object_of_child? member'
      obtain ⟨rfl, rfl⟩ := tree.branching.single parent parent' fields fields' object object' key
        key' x (mem_of_lookup member) (mem_of_lookup member')
      rw [ih way way', List.concat_eq_append]

/-- The value that keys lead to in a snapshot is the snapshot of the cell they lead to. -/
theorem at?_snapshotOf (tree : s.Tree) {keys : List String} {a b : CellId}
    (reached : s.descend? a keys = some b) : (s.snapshotOf a).at? keys = some (s.snapshotOf b) := by
  induction keys generalizing a with
  | nil => exact congrArg _ (congrArg _ (Option.some.inj reached))
  | cons key rest ih =>
    obtain ⟨child, member, further⟩ := Option.bind_eq_some_iff.mp reached
    obtain ⟨outer, object, member⟩ := object_of_child? member
    rw [Value.at?, step?_snapshotOf tree object, member]
    exact ih further

theorem follow_in_leaf (path : String) {keys : List String} {id : CellId} {pointer : String}
    {place : Handle} (reached : s.follow path keys (.leaf id pointer) = .ok place) :
    ∃ nested, place = .leaf id nested ∧
      Pointer.steps? nested = (Pointer.steps? pointer).map (· ++ keys) := by
  induction keys generalizing pointer with
  | nil =>
    refine ⟨pointer, (Except.ok.inj reached).symm, ?_⟩
    cases Pointer.steps? pointer <;> simp
  | cons key rest ih =>
    simp only [follow] at reached
    cases found : s.step? (.leaf id pointer) key with
    | none => simp [found] at reached
    | some next =>
      simp only [found] at reached
      obtain missing | inside := findInLeaf_cases s id pointer key
      · simp [step?, find, missing] at found
      · simp only [step?, find, inside, Option.some.injEq] at found
        subst found
        obtain ⟨nested, rfl, steps⟩ := ih reached
        refine ⟨nested, rfl, ?_⟩
        rw [steps, Pointer.steps?_child, Option.map_map]
        simp [Function.comp_def]

/-- Keys lead from an object to an object, or through a leaf into the value it holds. -/
theorem place_of_follow (plain : s.Plain) (path : String) {keys : List String} {a : CellId}
    {fields : List (String × CellId)} (object : s.content a = .object fields) {place : Handle}
    (reached : s.follow path keys (.object a) = .ok place) :
    (∃ b, place = .object b ∧ s.descend? a keys = some b) ∨
      ∃ b pointer before after, place = .leaf b pointer ∧ keys = before ++ after ∧
        s.descend? a before = some b ∧ Pointer.steps? pointer = some after := by
  induction keys generalizing a fields with
  | nil => exact .inl ⟨a, (Except.ok.inj reached).symm, rfl⟩
  | cons key rest ih =>
    simp only [follow, step?_of_object plain object] at reached
    cases member : fields.lookup key with
    | none => simp [member] at reached
    | some child =>
      simp only [member, Option.map_some] at reached
      have down : s.child? a key = some child := by simp only [child?, object, member]
      by_cases inner : ∃ inner, s.content child = .object inner
      · obtain ⟨inner, isObject⟩ := inner
        rw [handleOf_object isObject] at reached
        obtain ⟨b, rfl, way⟩ | ⟨b, pointer, before, after, rfl, rfl, way, steps⟩ :=
          ih isObject reached
        · exact .inl ⟨b, rfl, by simp only [descend?, down, Option.bind_some, way]⟩
        · exact .inr ⟨b, pointer, key :: before, after, rfl, rfl,
            by simp only [descend?, down, Option.bind_some, way], steps⟩
      · have leaf : s.handleOf child = .leaf child "" := by
          unfold handleOf
          split
          · exact (inner ⟨_, ‹_›⟩).elim
          · rfl
        rw [leaf] at reached
        obtain ⟨pointer, rfl, steps⟩ := follow_in_leaf path reached
        exact .inr ⟨child, pointer, [key], rest, rfl, rfl,
          by simp only [descend?, down, Option.bind_some], steps⟩

/-- A write inside a leaf tells nobody. -/
theorem writeInLeaf_done (s : Store γ) (id : CellId) (pointer key : String) (w : Value) :
    ∃ outcome, (s.writeInLeaf id pointer key w).1 = .done outcome := by
  unfold writeInLeaf
  split
  · split
    · exact ⟨_, rfl⟩
    · dsimp only
      split <;> exact ⟨_, rfl⟩
  · exact ⟨_, rfl⟩

/-- Only a write of a member that has a cell comes to a cell, and to this one. -/
theorem descend?_of_write (plain : s.Plain) (path : String) {way : List String} {a c : CellId}
    {fields : List (String × CellId)} (object : s.content a = .object fields) {place : Handle}
    (reached : s.follow path way (.object a) = .ok place) {key : String} {w : Value}
    (wrote : s.write place key w = (.cell c, t)) : s.descend? a (way ++ [key]) = some c := by
  obtain ⟨b, rfl, down⟩ | ⟨b, pointer, before, after, rfl, -, -, -⟩ :=
    place_of_follow plain path object reached
  · rw [descend?_append, down, Option.bind_some]
    simp only [write] at wrote
    split at wrote
    · rename_i keys isObject
      split at wrote
      · cases wrote
      · rename_i child member
        have same : child = c := by
          unfold writeCell at wrote
          split at wrote
          · cases wrote
          · split at wrote
            · cases wrote
            · exact Written.cell.inj (Prod.mk.inj wrote).1
          · exact Written.cell.inj (Prod.mk.inj wrote).1
        simp only [child?, isObject, member, same]
    · obtain ⟨outcome, done⟩ := writeInLeaf_done s b "" key w
      cases done.symm.trans (congrArg Prod.fst wrote)
  · obtain ⟨outcome, done⟩ := writeInLeaf_done s b pointer key w
    cases done.symm.trans (congrArg Prod.fst wrote)

end Ways

section Frame

/-- Of the cells of the first store all but one are as before. -/
structure Alters (s t : Store γ) (x : CellId) : Prop where
  root : t.root = s.root
  others : ∀ id, id < s.cells.size → id ≠ x → t.content id = s.content id

theorem Overwrites.alters {v : Value} (wrote : Overwrites s t x v) : Alters s t x :=
  ⟨wrote.root, fun id _ other => wrote.others id other⟩

variable (tree : s.Tree) (tree' : t.Tree) (alters : Alters s t x)
include tree tree' alters

/-- What does not contain the altered cell has the snapshot it had. -/
theorem snapshotOf_elsewhere {c : CellId} (inside : c < s.cells.size)
    (apart : ∀ keys, s.descend? c keys ≠ some x) : t.snapshotOf c = s.snapshotOf c := by
  induction c using Nat.strongRecOn with
  | ind c ih =>
    have same := alters.others c inside fun here => apart [] (congrArg some here)
    cases content : s.content c with
    | computed property => exact (tree.plain c property content).elim
    | leaf v => rw [snapshotOf_leaf content, snapshotOf_leaf (same.trans content)]
    | object fields =>
      rw [snapshotOf_object tree content, snapshotOf_object tree' (same.trans content)]
      congr 1
      refine List.map_congr_left fun member member_in => ?_
      have within := (tree.sound.members c fields content member member_in).1
      have down : s.child? c member.1 = some member.2 := by
        simp only [child?, content]
        exact lookup_of_mem (tree.branching.distinct c fields content) member_in
      have apart' : ∀ keys, s.descend? member.2 keys ≠ some x := by
        intro keys reached
        exact apart (member.1 :: keys) (by simp only [descend?, down, Option.bind_some, reached])
      have same' := alters.others member.2 within fun here => apart' [] (congrArg some here)
      cases inner : s.content member.2 with
      | computed property => exact (tree.plain member.2 property inner).elim
      | leaf v => rw [snapshotOf_leaf inner, snapshotOf_leaf (same'.trans inner)]
      | object fields' =>
        have below := tree.sound.nested c fields content member member_in fields' inner
        rw [ih member.2 below within apart']

/-- A change at a cell is a change at one place of every snapshot that the cell is in. -/
theorem snapshotOf_put {keys : List String} {a : CellId} (reached : s.descend? a keys = some x) :
    t.snapshotOf a = (s.snapshotOf a).putAt keys (t.snapshotOf x) := by
  induction keys generalizing a with
  | nil =>
    obtain rfl := Option.some.inj reached
    rfl
  | cons key rest ih =>
    obtain ⟨child, member, further⟩ := Option.bind_eq_some_iff.mp reached
    obtain ⟨fields, object, member⟩ := object_of_child? member
    have other : a ≠ x := by
      rintro rfl
      exact descend?_cons_ne tree.sound reached
    have object' : t.content a = .object fields :=
      (alters.others a (inside_of_object object) other).trans object
    have step : (s.snapshotOf a).step? key = some (s.snapshotOf child) := by
      rw [step?_snapshotOf tree object, member, Option.map_some]
    rw [Value.putAt, step]
    dsimp only
    rw [← ih further, snapshotOf_object tree object, snapshotOf_object tree' object']
    have distinct := tree.branching.distinct a fields object
    have found : (s.members fields).lookup key = some (s.snapshotOf child) := by
      rw [lookup_members s distinct, member, Option.map_some]
    change Value.object (t.members fields) = .object (Entries.set key _ (s.members fields))
    refine congrArg Value.object
      ((ascending_members t fields).ext ((ascending_members s fields).set found _) fun name => ?_)
    rw [lookup_members t distinct]
    by_cases same : name = key
    · rw [same, Entries.lookup_set_self, member, Option.map_some]
    · rw [Entries.lookup_set_of_ne same, lookup_members s distinct]
      cases beside : fields.lookup name with
      | none => rfl
      | some sibling =>
        refine congrArg some (snapshotOf_elsewhere tree tree' alters
          (tree.sound.members a fields object _ (mem_of_lookup beside)).1 fun keys way => same ?_)
        have down : s.child? a name = some sibling := by simp only [child?, object, beside]
        have reached' : s.descend? a (name :: keys) = some x := by
          simp only [descend?, down, Option.bind_some, way]
        exact (List.cons.inj (descend?_injective tree reached' reached)).1

end Frame

section Writing

variable {parent : CellId} {keys : List (String × CellId)}

theorem alters_addMember (object : s.content parent = .object keys) (key : String) (c : Content γ) :
    Alters s (s.addMember parent key c) parent := by
  refine ⟨root_addMember s parent key c, fun id inside other => ?_⟩
  rw [content_addMember object, if_neg other, if_neg (Nat.ne_of_lt inside)]

/-- A new member is a new field of the snapshot. -/
theorem snapshotOf_addMember (tree : s.Tree) (object : s.content parent = .object keys)
    {key : String} (fresh : keys.lookup key = none) (w : Value) :
    (s.addMember parent key (.leaf w)).snapshotOf parent =
      .object (Fields.insert key w (s.members keys)) := by
  have tree' := tree.addMember object fresh w
  have alters := alters_addMember object key (.leaf w)
  have inside : parent < s.cells.size := inside_of_object object
  have object' : (s.addMember parent key (.leaf w)).content parent =
      .object (keys ++ [(key, s.cells.size)]) := by
    rw [content_addMember object, if_pos rfl]
  have new : (s.addMember parent key (.leaf w)).snapshotOf s.cells.size = w := by
    refine snapshotOf_leaf ?_
    rw [content_addMember object, if_neg (Nat.ne_of_gt inside), if_pos rfl]
  have kept :
      keys.map (fun member => (member.1, (s.addMember parent key (.leaf w)).snapshotOf member.2)) =
      keys.map fun member => (member.1, s.snapshotOf member.2) := by
    refine List.map_congr_left fun member member_in => ?_
    rw [snapshotOf_elsewhere tree tree' alters
      (tree.sound.members parent keys object member member_in).1 fun way reached => ?_]
    have down : s.child? parent member.1 = some member.2 := by
      simp only [child?, object]
      exact lookup_of_mem (tree.branching.distinct parent keys object) member_in
    have around : s.descend? parent (member.1 :: way) = some parent := by
      simp only [descend?, down, Option.bind_some, reached]
    exact descend?_cons_ne tree.sound around
  rw [snapshotOf_object tree' object', List.map_append, kept, List.map_singleton, new]
  exact congrArg Value.object (Fields.ofPairs_concat _ key w)

/-- The snapshot changes at one place, and no observer comes or goes. -/
structure Changes (s t : Store γ) (way : List String) (changed : Value) : Prop where
  tree : t.Tree
  snapshot : t.snapshot = s.snapshot.putAt way changed
  registry : ∀ id, t.registry id = s.registry id

theorem changes_addMember (tree : s.Tree) {way : List String}
    (down : s.descend? s.root way = some parent) (object : s.content parent = .object keys)
    {key : String} (fresh : keys.lookup key = none) (w : Value) :
    Changes s (s.addMember parent key (.leaf w)) way
      (.object (Fields.insert key w (s.members keys))) := by
  have tree' := tree.addMember object fresh w
  refine ⟨tree', ?_, registry_addMember object key _⟩
  rw [← snapshotOf_addMember tree object fresh w, snapshot, root_addMember]
  exact snapshotOf_put tree tree' (alters_addMember object key _) down

theorem changes_member (tree : s.Tree) {way : List String}
    (down : s.descend? s.root way = some parent) (object : s.content parent = .object keys)
    {key : String} {child : CellId} (member : keys.lookup key = some child) (w : Value) :
    Changes s (s.setContent child (.leaf w)) way
      (.object (Entries.set key w (s.members keys))) := by
  obtain ⟨inside, notRoot⟩ := tree.sound.members parent keys object _ (mem_of_lookup member)
  have wrote := overwrites_setContent inside w
  refine ⟨wrote.tree tree notRoot, ?_, fun id => registry_setContent s child id _⟩
  have found : (s.snapshotOf parent).step? key = some (s.snapshotOf child) := by
    rw [step?_snapshotOf tree object, member, Option.map_some]
  have deeper : s.descend? s.root (way ++ [key]) = some child := by
    rw [descend?_append, down, Option.bind_some, child?, object]
    exact member
  have put := snapshotOf_put tree (wrote.tree tree notRoot) wrote.alters deeper
  rw [Value.putAt_append (at?_snapshotOf tree down), Value.putAt_singleton found,
    snapshotOf_leaf wrote.written, snapshotOf_object tree object] at put
  exact put

theorem changes_leaf (tree : s.Tree) {before after : List String} {b : CellId} {v : Value}
    (down : s.descend? s.root before = some b) (leaf : s.content b = .leaf v) (changed : Value) :
    Changes s (s.setContent b (.leaf (v.putAt after changed))) (before ++ after) changed := by
  obtain ⟨inside, notRoot⟩ : b < s.cells.size ∧ b ≠ s.root := by
    obtain rfl | ⟨outer, key, rfl⟩ := List.eq_nil_or_concat before
    · obtain ⟨fields, root⟩ := tree.sound.root_object
      cases (Option.some.inj down ▸ leaf).symm.trans root
    · rw [List.concat_eq_append, descend?_append] at down
      obtain ⟨parent, -, member⟩ := Option.bind_eq_some_iff.mp down
      exact tree.sound.child member
  have wrote := overwrites_setContent inside (v.putAt after changed)
  refine ⟨wrote.tree tree notRoot, ?_, fun id => registry_setContent s b id _⟩
  have put := snapshotOf_put tree (wrote.tree tree notRoot) wrote.alters down
  have value := at?_snapshotOf tree down
  rw [snapshotOf_leaf leaf] at value
  rw [snapshotOf_leaf wrote.written, ← Value.putAt_append value] at put
  exact put

/-- A write of a member of a place is a write of the member of its value. It finds nothing to write,
keeps an equal value, or changes the snapshot at the place. -/
theorem write_snapshot (tree : s.Tree) (path : String) {way : List String} {place : Handle}
    (reached : s.follow path way (.object s.root) = .ok place) (key : String) (w : Value) :
    ((s.valueOf place).setMember key w = (.missing, s.valueOf place) ∧
      s.write place key w = (.done .missing, s)) ∨
    ((s.valueOf place).setMember key w = (.unchanged, s.valueOf place) ∧
      s.write place key w = (.done .unchanged, s)) ∨
    ∃ changed t, (s.valueOf place).setMember key w = (.silent, changed) ∧ Changes s t way changed ∧
      (s.write place key w = (.done .created, t) ∨ s.write place key w = (.done .silent, t) ∨
        ∃ id, s.write place key w = (.cell id, t)) := by
  obtain ⟨rootFields, root⟩ := tree.sound.root_object
  have stands := (follow_value tree path way (stands_root tree)).2 place reached
  obtain ⟨b, rfl, down⟩ | ⟨b, pointer, before, after, rfl, rfl, down, steps⟩ :=
    place_of_follow tree.plain path root reached
  · obtain ⟨fields, object⟩ := stands
    have value : s.valueOf (.object b) = .object (s.members fields) := snapshotOf_object tree object
    simp only [write, object, value, Value.setMember,
      lookup_members s (tree.branching.distinct b fields object)]
    cases member : fields.lookup key with
    | none => exact .inr (.inr ⟨_, _, rfl, changes_addMember tree down object member w, .inl rfl⟩)
    | some child =>
      have changes := changes_member tree down object member w
      simp only [Option.map_some, writeCell]
      cases content : s.content child with
      | computed property => exact (tree.plain child property content).elim
      | leaf current =>
        simp only [snapshotOf_leaf content]
        split
        · exact .inr (.inl ⟨rfl, rfl⟩)
        · exact .inr (.inr ⟨_, _, rfl, changes, .inr (.inr ⟨child, rfl⟩)⟩)
      | object inner =>
        have unequal : (w.isScalar && (s.snapshotOf child).strictEq w) = false := by
          rw [snapshotOf_object tree content]
          cases w <;> rfl
        rw [unequal, if_neg Bool.false_ne_true]
        exact .inr (.inr ⟨_, _, rfl, changes, .inr (.inr ⟨child, rfl⟩)⟩)
  · obtain ⟨v, target, leaf, found⟩ := stands
    simp only [write, writeInLeaf, leaf, found, valueOf_leaf leaf found]
    obtain missing | ⟨same, -⟩ | ⟨changed, silent, -⟩ := Value.setMember_cases target key w
    · exact .inl ⟨missing, by simp [missing]⟩
    · exact .inr (.inl ⟨same, by simp [same]⟩)
    · refine .inr (.inr ⟨changed, _, silent, changes_leaf tree down leaf changed, .inr (.inl ?_)⟩)
      simp [silent, Value.putPointer, steps]

end Writing
end ReactiveView.Store
