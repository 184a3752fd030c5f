import ReactiveView.Store.Access

/-! Which stores there are. A store is laid out from data and then changed by writes, by computed
properties and by registrations only, so the members of its objects are cells of the store other
than the root, the root stays an object, and an object inside an object is numbered before it. -/
namespace ReactiveView.Store

variable {γ : Type}

/-- Members are cells of the store other than the root. Numbers of objects fall on the way in. -/
structure Sound (s : Store γ) : Prop where
  root_inside : s.root < s.cells.size
  root_object : ∃ keys, s.content s.root = .object keys
  members : ∀ id keys, s.content id = .object keys →
    ∀ member ∈ keys, member.2 < s.cells.size ∧ member.2 ≠ s.root
  nested : ∀ id keys, s.content id = .object keys →
    ∀ member ∈ keys, ∀ inner, s.content member.2 = .object inner → member.2 < id

/-- The stores that come about: laid out from data, then written, extended and registered on. -/
inductive Reachable : Store γ → Prop
  | ofValue (data : Value) : Reachable (.ofValue data)
  | write {s : Store γ} (parent : Handle) (key : String) (value : Value) :
      Reachable s → Reachable (s.write parent key value).2
  | defineComputed {s : Store γ} (name : String) (property : γ) :
      Reachable s → Reachable (s.defineComputed name property)
  | setRegistry {s : Store γ} (id : CellId) (r : Registry) :
      Reachable s → Reachable (s.setRegistry id r)

theorem contentOf_push (cells : Array (Cell γ)) (cell : Cell γ) (id : CellId) :
    contentOf (cells.push cell) id =
      if id = cells.size then cell.content else contentOf cells id := by
  by_cases last : id = cells.size
  · simp [contentOf, last]
  · by_cases inside : id < cells.size
    · simp [contentOf, Array.getElem?_push_lt, inside, last]
    · simp only [contentOf, Array.getElem?_push, if_neg last]

theorem inside_of_object {cells : Array (Cell γ)} {id : CellId} {keys : List (String × CellId)}
    (found : contentOf cells id = .object keys) : id < cells.size := by
  refine Nat.lt_of_not_le fun outside => ?_
  simp [contentOf, Array.getElem?_eq_none outside] at found

@[simp] theorem size_setContent (s : Store γ) (id : CellId) (c : Content γ) :
    (s.setContent id c).cells.size = s.cells.size := by
  simp [setContent]

@[simp] theorem root_setContent (s : Store γ) (id : CellId) (c : Content γ) :
    (s.setContent id c).root = s.root := rfl

theorem registry_setContent (s : Store γ) (id other : CellId) (c : Content γ) :
    (s.setContent id c).registry other = s.registry other := by
  by_cases same : id = other <;>
    simp [registry, setContent, Array.getElem?_modify, same, Option.map_map, Function.comp_def]

@[simp] theorem size_setRegistry (s : Store γ) (id : CellId) (r : Registry) :
    (s.setRegistry id r).cells.size = s.cells.size := by
  simp [setRegistry]

@[simp] theorem root_setRegistry (s : Store γ) (id : CellId) (r : Registry) :
    (s.setRegistry id r).root = s.root := rfl

theorem registry_setRegistry (s : Store γ) (id other : CellId) (r : Registry) :
    (s.setRegistry id r).registry other =
      if other = id ∧ id < s.cells.size then r else s.registry other := by
  by_cases same : other = id
  · subst same
    by_cases inside : other < s.cells.size
    · rw [if_pos ⟨rfl, inside⟩, registry, setRegistry, Array.getElem?_modify, if_pos rfl,
        Array.getElem?_eq_getElem inside]
      rfl
    · simp [registry, setRegistry, inside]
  · rw [if_neg fun both => same both.1]
    simp [registry, setRegistry, Array.getElem?_modify, Ne.symm same]

theorem mem_of_lookup {β : Type} {key : String} {b : β} {fields : List (String × β)}
    (found : fields.lookup key = some b) : (key, b) ∈ fields := by
  obtain ⟨before, after, rfl, -⟩ := List.lookup_eq_some_iff.mp found
  simp

section LayOut

/-- Every member of an object among the cells is numbered before the object. -/
def Rising (cells : Array (Cell γ)) : Prop :=
  ∀ id keys, contentOf cells id = .object keys → ∀ member ∈ keys, member.2 < id

theorem Rising.push {cells : Array (Cell γ)} (rising : Rising cells) {c : Content γ}
    (below : ∀ keys, c = .object keys → ∀ member ∈ keys, member.2 < cells.size) :
    Rising (cells.push { content := c }) := by
  intro id keys found
  rw [contentOf_push] at found
  split at found
  · rename_i last
    exact last ▸ below keys found
  · exact rising id keys found

mutual

theorem layOut_spec (cells : Array (Cell γ)) (rising : Rising cells) :
    ∀ v : Value, Rising (layOut cells v).2 ∧ cells.size ≤ (layOut cells v).1 ∧
      (layOut cells v).2.size = (layOut cells v).1 + 1
  | .object fields => by
    obtain ⟨kept, grows, below⟩ := layOutFields_spec cells rising fields
    simp only [layOut, Array.size_push, and_true]
    refine ⟨kept.push fun keys same member found => ?_, grows⟩
    cases same
    exact below member found
  | .null | .bool _ | .number _ | .string _ | .array _ => by
    simp only [layOut, Array.size_push, Nat.le_refl, and_true]
    exact rising.push fun _ same => by cases same

theorem layOutFields_spec (cells : Array (Cell γ)) (rising : Rising cells) :
    ∀ fields : List (String × Value), Rising (layOutFields cells fields).2 ∧
      cells.size ≤ (layOutFields cells fields).2.size ∧
      ∀ member ∈ (layOutFields cells fields).1, member.2 < (layOutFields cells fields).2.size
  | [] => by simpa [layOutFields] using rising
  | (key, v) :: rest => by
    obtain ⟨first, grows, last⟩ := layOut_spec cells rising v
    obtain ⟨kept, more, below⟩ := layOutFields_spec (layOut cells v).2 first rest
    simp only [layOutFields]
    refine ⟨kept, by omega, fun member found => ?_⟩
    rcases List.mem_cons.mp found with rfl | found
    · exact Nat.lt_of_lt_of_le (last ▸ Nat.lt_succ_self _) more
    · exact below member found

end

mutual

theorem layOut_plain (cells : Array (Cell γ)) (plain : ∀ id p, contentOf cells id ≠ .computed p) :
    ∀ (v : Value) (id : CellId) (p : γ), contentOf (layOut cells v).2 id ≠ .computed p
  | .object fields => by
    intro id p
    simp only [layOut, contentOf_push]
    split
    · exact fun same => by cases same
    · exact layOutFields_plain cells plain fields id p
  | .null | .bool _ | .number _ | .string _ | .array _ => by
    intro id p
    simp only [layOut, contentOf_push]
    split
    · exact fun same => by cases same
    · exact plain id p

theorem layOutFields_plain (cells : Array (Cell γ))
    (plain : ∀ id p, contentOf cells id ≠ .computed p) :
    ∀ (fields : List (String × Value)) (id : CellId) (p : γ),
      contentOf (layOutFields cells fields).2 id ≠ .computed p
  | [] => plain
  | (_, v) :: rest => layOutFields_plain (layOut cells v).2 (layOut_plain cells plain v) rest

end

/-- Data alone computes nothing. -/
theorem content_ofValue (data : Value) (id : CellId) (p : γ) :
    (Store.ofValue data).content id ≠ .computed p := by
  have plain : ∀ v : Value, contentOf (layOut (#[] : Array (Cell γ)) v).2 id ≠ .computed p := by
    refine fun v => layOut_plain _ (fun id p => ?_) v id p
    simp [contentOf]
  cases data with
  | object fields => exact plain (.object fields)
  | _ => exact plain (.object [])

/-- No observer is registered in the cells. -/
def Silent (cells : Array (Cell γ)) : Prop :=
  ∀ cell ∈ cells, cell.registry = {}

theorem Silent.push {cells : Array (Cell γ)} (silent : Silent cells) (c : Content γ) :
    Silent (cells.push { content := c }) := by
  intro cell member
  rcases Array.mem_push.mp member with before | rfl
  · exact silent cell before
  · rfl

mutual

theorem layOut_silent (cells : Array (Cell γ)) (silent : Silent cells) :
    ∀ v : Value, Silent (layOut cells v).2
  | .object fields => (layOutFields_silent cells silent fields).push _
  | .null | .bool _ | .number _ | .string _ | .array _ => silent.push _

theorem layOutFields_silent (cells : Array (Cell γ)) (silent : Silent cells) :
    ∀ fields : List (String × Value), Silent (layOutFields cells fields).2
  | [] => silent
  | (_, v) :: rest => layOutFields_silent (layOut cells v).2 (layOut_silent cells silent v) rest

end

/-- Nobody observes new data. -/
theorem entries_ofValue (data : Value) (id : CellId) :
    ((Store.ofValue data : Store γ).registry id).entries = [] := by
  have silent : ∀ v : Value, Silent (layOut (#[] : Array (Cell γ)) v).2 :=
    fun v => layOut_silent _ (fun cell member => by cases Array.not_mem_empty cell member) v
  have all : Silent (Store.ofValue data : Store γ).cells := by
    cases data with
    | object fields => exact silent (.object fields)
    | _ => exact silent (.object [])
  unfold registry
  cases found : (Store.ofValue data : Store γ).cells[id]? with
  | none => rfl
  | some cell =>
    have same := all cell (Array.mem_of_getElem? found)
    simp [same]

theorem sound_ofObject (fields : List (String × Value)) :
    (Store.ofValue (.object fields) : Store γ).Sound := by
  have none : Rising (#[] : Array (Cell γ)) := by
    intro id keys found
    simp [contentOf] at found
  obtain ⟨rising, -, last⟩ := layOut_spec #[] none (.object fields)
  refine ⟨by simp [ofValue, last], ⟨(layOutFields (#[] : Array (Cell γ)) fields).1, ?_⟩,
    fun id keys found member member_in => ?_,
    fun id keys found member member_in _ _ => rising id keys found member member_in⟩
  · simp [content, ofValue, layOut, contentOf_push]
  · have below := rising id keys found member member_in
    have bound := inside_of_object found
    simp only [ofValue] at bound ⊢
    lia

end LayOut

theorem sound_ofValue (data : Value) : Sound (.ofValue data : Store γ) := by
  cases data with
  | object fields => exact sound_ofObject fields
  | _ => exact sound_ofObject []

namespace Sound

variable {s : Store γ}

/-- A cell other than the root may be overwritten by anything but an object. -/
theorem setContent (sound : s.Sound) {id : CellId} (notRoot : id ≠ s.root) {c : Content γ}
    (plain : ∀ keys, c ≠ .object keys) : (s.setContent id c).Sound := by
  obtain ⟨keys, root⟩ := sound.root_object
  have before : ∀ other keys, (s.setContent id c).content other = .object keys →
      s.content other = .object keys := by
    intro other keys found
    by_cases same : other = id
    · subst same
      have inside : other < s.cells.size := by simpa using inside_of_object found
      rw [content_setContent_self inside] at found
      exact (plain keys found).elim
    · rwa [content_setContent_of_ne same] at found
  refine ⟨by simpa using sound.root_inside,
    ⟨keys, (content_setContent_of_ne (Ne.symm notRoot) c).trans root⟩, fun other keys found => ?_,
    fun other keys found member member_in inner inside =>
      sound.nested other keys (before _ _ found) member member_in inner (before _ _ inside)⟩
  simpa using sound.members other keys (before _ _ found)

theorem setRegistry (sound : s.Sound) (id : CellId) (r : Registry) :
    (s.setRegistry id r).Sound := by
  obtain ⟨keys, root⟩ := sound.root_object
  refine ⟨by simpa using sound.root_inside,
    ⟨keys, (content_setRegistry s id _ r).trans root⟩, fun other keys found => ?_,
    fun other keys found member member_in inner inside => ?_⟩
  · rw [content_setRegistry] at found
    simpa using sound.members other keys found
  · rw [content_setRegistry] at found inside
    exact sound.nested other keys found member member_in inner inside

theorem child {parent id : CellId} {key : String} (sound : s.Sound)
    (found : s.child? parent key = some id) : id < s.cells.size ∧ id ≠ s.root := by
  unfold Store.child? at found
  split at found
  · rename_i keys object
    exact sound.members parent keys object _ (mem_of_lookup found)
  · cases found

theorem addMember (sound : s.Sound) (parent : CellId) (key : String) {c : Content γ}
    (plain : ∀ keys, c ≠ .object keys) : (s.addMember parent key c).Sound := by
  unfold Store.addMember
  split
  · rename_i keys object
    dsimp only
    have rootInside := sound.root_inside
    have inside : parent < s.cells.size := inside_of_object object
    have pushed : ∀ other, (Store.mk (s.cells.push { content := c }) s.root).content other =
        if other = s.cells.size then c else s.content other := contentOf_push s.cells _
    have self : (Store.setContent ⟨s.cells.push { content := c }, s.root⟩ parent
        (.object (keys ++ [(key, s.cells.size)]))).content parent =
          .object (keys ++ [(key, s.cells.size)]) :=
      content_setContent_self (by simpa using Nat.lt_succ_of_lt inside) _
    have outer : ∀ other fields, (Store.setContent ⟨s.cells.push { content := c }, s.root⟩ parent
        (.object (keys ++ [(key, s.cells.size)]))).content other = .object fields →
          ∀ member ∈ fields, member = (key, s.cells.size) ∨
            ∃ old, s.content other = .object old ∧ member ∈ old := by
      intro other fields found member member_in
      by_cases same : other = parent
      · subst same
        obtain rfl := Content.object.inj (self.symm.trans found)
        rcases List.mem_append.mp member_in with old | new
        · exact .inr ⟨keys, object, old⟩
        · exact .inl (List.mem_singleton.mp new)
      · rw [content_setContent_of_ne same, pushed] at found
        split at found
        · exact (plain fields found).elim
        · exact .inr ⟨fields, found, member_in⟩
    refine ⟨by simpa using Nat.lt_succ_of_lt rootInside, ?_,
      fun other fields found member member_in => ?_,
      fun other fields found member member_in inner inside => ?_⟩
    · by_cases same : s.root = parent
      · exact ⟨_, (congrArg _ same).trans self⟩
      · obtain ⟨fields, root⟩ := sound.root_object
        refine ⟨fields, ?_⟩
        rw [root_setContent, content_setContent_of_ne same, pushed, if_neg (by lia), root]
    · simp only [size_setContent, root_setContent, Array.size_push]
      obtain rfl | ⟨old, was, member_old⟩ := outer other fields found member member_in
      · exact ⟨Nat.lt_succ_self _, Nat.ne_of_gt rootInside⟩
      · have := sound.members other old was member member_old
        lia
    · obtain rfl | ⟨old, was, member_old⟩ := outer other fields found member member_in
      · rw [content_setContent_of_ne (Nat.ne_of_gt ‹_›), pushed, if_pos rfl] at inside
        exact (plain inner inside).elim
      · have bound := sound.members other old was member member_old
        by_cases same : member.2 = parent
        · exact sound.nested other old was member member_old keys (same ▸ object)
        · rw [content_setContent_of_ne same, pushed, if_neg (by lia)] at inside
          exact sound.nested other old was member member_old inner inside
  · exact sound

theorem defineComputed (sound : s.Sound) (name : String) (property : γ) :
    (s.defineComputed name property).Sound := by
  unfold Store.defineComputed
  split
  · rename_i id found
    exact sound.setContent (sound.child found).2 fun _ h => by cases h
  · exact sound.addMember _ _ fun _ h => by cases h

/-- A leaf is left as it was or replaced by another leaf. -/
theorem writeInLeaf_cases (sound : s.Sound) (id : CellId) (pointer key : String) (value : Value) :
    (s.writeInLeaf id pointer key value).2 = s ∨
      ∃ v, id ≠ s.root ∧ (s.writeInLeaf id pointer key value).2 = s.setContent id (.leaf v) := by
  unfold Store.writeInLeaf
  split
  · rename_i v leaf
    split
    · exact .inl rfl
    · dsimp only
      split
      · refine .inr ⟨_, ?_, rfl⟩
        rintro rfl
        obtain ⟨keys, object⟩ := sound.root_object
        cases leaf.symm.trans object
      · exact .inl rfl
  · exact .inl rfl

theorem writeCell_cases (s : Store γ) (id : CellId) (value : Value) :
    (s.writeCell id value).2 = s ∨ (s.writeCell id value).2 = s.setContent id (.leaf value) := by
  unfold Store.writeCell
  split
  · exact .inl rfl
  · split
    · exact .inl rfl
    · exact .inr rfl
  · exact .inr rfl

/-- A write leaves the store as it was, puts a leaf into a cell other than the root, or gives an
object a new member. -/
theorem write_cases (sound : s.Sound) (parent : Handle) (key : String) (value : Value) :
    (s.write parent key value).2 = s ∨
      (∃ c v, c ≠ s.root ∧ (s.write parent key value).2 = s.setContent c (.leaf v)) ∨
      ∃ a keys, s.content a = .object keys ∧ keys.lookup key = none ∧
        (s.write parent key value).2 = s.addMember a key (.leaf value) := by
  have inLeaf : ∀ id pointer, (s.writeInLeaf id pointer key value).2 = s ∨
      ∃ c v, c ≠ s.root ∧ (s.writeInLeaf id pointer key value).2 = s.setContent c (.leaf v) :=
    fun id pointer => (sound.writeInLeaf_cases id pointer key value).imp_right fun ⟨v, changed⟩ =>
      ⟨id, v, changed⟩
  unfold Store.write
  split
  · rename_i id
    split
    · rename_i keys object
      split
      · rename_i fresh
        exact .inr (.inr ⟨id, keys, object, fresh, rfl⟩)
      · rename_i child found
        have notRoot := (sound.members id keys object _ (mem_of_lookup found)).2
        exact (writeCell_cases s child value).imp_right fun changed =>
          .inl ⟨child, value, notRoot, changed⟩
    · exact (inLeaf _ _).imp_right .inl
  · exact (inLeaf _ _).imp_right .inl
  · exact .inl rfl

theorem write (sound : s.Sound) (parent : Handle) (key : String) (value : Value) :
    (s.write parent key value).2.Sound := by
  obtain same | ⟨c, v, notRoot, changed⟩ | ⟨a, keys, -, -, added⟩ :=
    sound.write_cases parent key value
  · rw [same]
    exact sound
  · rw [changed]
    exact sound.setContent notRoot nofun
  · rw [added]
    exact sound.addMember a key nofun

end Sound

theorem Reachable.sound {s : Store γ} (reachable : s.Reachable) : s.Sound := by
  induction reachable with
  | ofValue data => exact sound_ofValue data
  | write parent key value _ ih => exact ih.write parent key value
  | defineComputed name property _ ih => exact ih.defineComputed name property
  | setRegistry id r _ ih => exact ih.setRegistry id r

end ReactiveView.Store
