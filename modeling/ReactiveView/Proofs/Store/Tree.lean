import ReactiveView.Proofs.Store.Overwriting
import ReactiveView.Proofs.Value.Fields

/-! Stores as trees. Data whose keys are distinct is laid out as a tree of cells: the keys of an
object are distinct, and no cell is a member twice. Writes keep the tree, because they replace cells
by leaves and give every new member a cell of its own. -/
namespace ReactiveView.Store

variable {γ : Type}

/-- Objects among the cells have distinct keys, and no cell is a member of two of them. -/
structure Branching (cells : Array (Cell γ)) : Prop where
  distinct : ∀ id keys, contentOf cells id = .object keys → (keys.map (·.1)).Nodup
  single : ∀ a b fields others, contentOf cells a = .object fields →
    contentOf cells b = .object others → ∀ key other c, (key, c) ∈ fields → (other, c) ∈ others →
      a = b ∧ key = other

/-- All properties are data, and their cells form a tree. -/
structure Tree (s : Store γ) : Prop where
  sound : s.Sound
  plain : s.Plain
  branching : Branching s.cells

section LayOut

/-- The cell is a member of no object. -/
def Loose (cells : Array (Cell γ)) (c : CellId) : Prop :=
  ∀ id keys, contentOf cells id = .object keys → ∀ member ∈ keys, member.2 ≠ c

theorem Loose.push {cells : Array (Cell γ)} {c : CellId} (loose : Loose cells c)
    {content : Content γ} (apart : ∀ keys, content = .object keys → ∀ member ∈ keys, member.2 ≠ c) :
    Loose (cells.push { content }) c := by
  intro id keys found
  rw [contentOf_push] at found
  split at found
  · exact apart keys found
  · exact loose id keys found

/-- Where members are numbered before their objects, the last cell is a member of none. -/
theorem Rising.loose {cells : Array (Cell γ)} (rising : Rising cells) {c : CellId}
    (last : cells.size ≤ c + 1) : Loose cells c := by
  intro id keys found member member_in
  have below := rising id keys found member member_in
  have inside := inside_of_object found
  lia

/-- Where all objects were there before, the cells still form a tree. -/
theorem Branching.mono {cells cells' : Array (Cell γ)} (branching : Branching cells)
    (before : ∀ id keys, contentOf cells' id = .object keys → contentOf cells id = .object keys) :
    Branching cells' := by
  constructor
  · intro id keys found
    exact branching.distinct id keys (before id keys found)
  · intro a b fields others first second
    exact branching.single a b fields others (before a fields first) (before b others second)

theorem Branching.push_leaf {cells : Array (Cell γ)} (branching : Branching cells) (v : Value) :
    Branching (cells.push { content := .leaf v }) := by
  refine branching.mono fun id keys found => ?_
  rw [contentOf_push] at found
  split at found
  · cases found
  · exact found

theorem Branching.push_object {cells : Array (Cell γ)} (branching : Branching cells)
    {keys : List (String × CellId)} (distinct : (keys.map (·.1)).Nodup)
    (apart : (keys.map (·.2)).Nodup) (loose : ∀ member ∈ keys, Loose cells member.2) :
    Branching (cells.push { content := .object keys }) := by
  constructor
  · intro id fields found
    rw [contentOf_push] at found
    split at found
    · cases found
      exact distinct
    · exact branching.distinct id fields found
  · intro a b fields others first second key other c member member'
    rw [contentOf_push] at first second
    split at first <;> split at second
    · cases first
      cases second
      have same := List.inj_on_of_nodup_map apart member member' rfl
      exact ⟨‹a = _›.trans ‹b = _›.symm, congrArg Prod.fst same⟩
    · cases first
      exact (loose _ member b others second _ member' rfl).elim
    · cases second
      exact (loose _ member' a fields first _ member rfl).elim
    · exact branching.single a b fields others first second key other c member member'

mutual

/-- New cells come behind those that are there, which stay as they are. -/
theorem layOut_frame (cells : Array (Cell γ)) : ∀ v : Value,
    cells.size < (layOut cells v).2.size ∧
      ∀ id, id < cells.size → contentOf (layOut cells v).2 id = contentOf cells id
  | .object fields => by
    obtain ⟨grows, kept⟩ := layOutFields_frame cells fields
    simp only [layOut, Array.size_push]
    refine ⟨Nat.lt_succ_of_le grows, fun id inside => ?_⟩
    rw [contentOf_push, if_neg (by lia), kept id inside]
  | .null | .bool _ | .number _ | .string _ | .array _ => by
    simp only [layOut, Array.size_push]
    refine ⟨Nat.lt_succ_self _, fun id inside => ?_⟩
    rw [contentOf_push, if_neg (Nat.ne_of_lt inside)]

theorem layOutFields_frame (cells : Array (Cell γ)) : ∀ fields : List (String × Value),
    cells.size ≤ (layOutFields cells fields).2.size ∧
      ∀ id, id < cells.size → contentOf (layOutFields cells fields).2 id = contentOf cells id
  | [] => ⟨Nat.le_refl _, fun _ _ => rfl⟩
  | (_, v) :: rest => by
    obtain ⟨grows, kept⟩ := layOut_frame cells v
    obtain ⟨more, keeps⟩ := layOutFields_frame (layOut cells v).2 rest
    refine ⟨Nat.le_trans (Nat.le_of_lt grows) more, fun id inside => ?_⟩
    exact (keeps id (Nat.lt_trans inside grows)).trans (kept id inside)

end

theorem layOutFields_names (cells : Array (Cell γ)) (fields : List (String × Value)) :
    (layOutFields cells fields).1.map (·.1) = fields.map (·.1) := by
  induction fields generalizing cells with
  | nil => rfl
  | cons field rest ih =>
    obtain ⟨key, v⟩ := field
    simp only [layOutFields, List.map_cons, ih]

/-- The cells of fields are new and numbered upwards. -/
theorem layOutFields_numbers (cells : Array (Cell γ)) (rising : Rising cells)
    (fields : List (String × Value)) :
    (∀ member ∈ (layOutFields cells fields).1, cells.size ≤ member.2) ∧
      ((layOutFields cells fields).1.map (·.2)).Nodup := by
  induction fields generalizing cells with
  | nil => exact ⟨fun member none => (List.not_mem_nil none).elim, List.nodup_nil⟩
  | cons field rest ih =>
    obtain ⟨key, v⟩ := field
    obtain ⟨risen, above, size⟩ := layOut_spec cells rising v
    obtain ⟨later, apart⟩ := ih (layOut cells v).2 risen
    simp only [layOutFields, List.map_cons, List.nodup_cons, List.mem_cons]
    refine ⟨?_, ?_, apart⟩
    · rintro member (rfl | member_in)
      · exact above
      · have := later member member_in
        lia
    · intro again
      obtain ⟨member, member_in, same⟩ := List.mem_map.mp again
      have := later member member_in
      lia

mutual

theorem layOut_branching (cells : Array (Cell γ)) (rising : Rising cells)
    (branching : Branching cells) : ∀ v : Value, v.Canonical →
      Branching (layOut cells v).2 ∧
        ∀ c, c < cells.size → Loose cells c → Loose (layOut cells v).2 c
  | .object fields, canonical => by
    obtain ⟨grown, loose, members⟩ :=
      layOutFields_branching cells rising branching fields canonical.2
    obtain ⟨above, apart⟩ := layOutFields_numbers cells rising fields
    simp only [layOut]
    refine ⟨grown.push_object ?_ apart members, fun c inside free => (loose c inside free).push ?_⟩
    · rw [layOutFields_names]
      exact canonical.1.distinct
    · rintro keys same member member_in
      obtain rfl := Content.object.inj same
      have := above member member_in
      lia
  | .null, _ | .bool _, _ | .number _, _ | .string _, _ | .array _, _ => by
    simp only [layOut]
    refine ⟨branching.push_leaf _, fun c _ free => free.push ?_⟩
    rintro keys same
    cases same

theorem layOutFields_branching (cells : Array (Cell γ)) (rising : Rising cells)
    (branching : Branching cells) : ∀ fields : List (String × Value), Value.CanonicalFields fields →
      Branching (layOutFields cells fields).2 ∧
        (∀ c, c < cells.size → Loose cells c → Loose (layOutFields cells fields).2 c) ∧
        ∀ member ∈ (layOutFields cells fields).1, Loose (layOutFields cells fields).2 member.2
  | [], _ => ⟨branching, fun _ _ free => free, fun _ none => (List.not_mem_nil none).elim⟩
  | (key, v) :: rest, canonical => by
    obtain ⟨risen, -, size⟩ := layOut_spec cells rising v
    obtain ⟨first, kept⟩ := layOut_branching cells rising branching v canonical.1
    obtain ⟨grown, keeps, members⟩ :=
      layOutFields_branching (layOut cells v).2 risen first rest canonical.2
    have grows := (layOut_frame cells v).1
    simp only [layOutFields]
    refine ⟨grown, fun c inside free => keeps c (Nat.lt_trans inside grows) (kept c inside free),
      ?_⟩
    intro member member_in
    obtain rfl | later := List.mem_cons.mp member_in
    · exact keeps _ (size ▸ Nat.lt_succ_self _) (risen.loose (Nat.le_of_eq size))
    · exact members member later

end

theorem tree_ofValue {data : Value} (canonical : data.Canonical) :
    (ofValue data : Store γ).Tree := by
  have rising : Rising (#[] : Array (Cell γ)) := by
    intro id keys found
    simp [contentOf] at found
  have branching : Branching (#[] : Array (Cell γ)) := by
    constructor
    · intro id keys found
      simp [contentOf] at found
    · intro a b fields others found
      simp [contentOf] at found
  refine ⟨sound_ofValue data, content_ofValue data, ?_⟩
  cases data with
  | object fields => exact (layOut_branching #[] rising branching _ canonical).1
  | _ => exact (layOut_branching #[] rising branching (.object []) ⟨.nil, trivial⟩).1

end LayOut

variable {s t : Store γ}

theorem SameData.branching (same : SameData s t) (branching : Branching s.cells) :
    Branching t.cells :=
  branching.mono fun id _ found => (same.content id).symm.trans found

theorem SameData.tree (same : SameData s t) (tree : s.Tree) : t.Tree :=
  ⟨same.sound tree.sound, same.plain tree.plain, same.branching tree.branching⟩

theorem Overwrites.tree {c : CellId} {v : Value} (wrote : Overwrites s t c v) (tree : s.Tree)
    (notRoot : c ≠ s.root) : t.Tree :=
  ⟨wrote.sound tree.sound notRoot, wrote.plain tree.plain,
    tree.branching.mono fun _ _ found => (wrote.object_before found).1⟩

/-- What is put into a cell is no new object. -/
theorem object_of_setContent {c : CellId} {content : Content γ}
    (flat : ∀ keys, content ≠ .object keys) {id : CellId} {keys : List (String × CellId)}
    (found : (s.setContent c content).content id = .object keys) : s.content id = .object keys := by
  by_cases same : id = c
  · subst same
    have inside : id < s.cells.size := by simpa using inside_of_object found
    exact (flat keys ((content_setContent_self inside content).symm.trans found)).elim
  · exact (content_setContent_of_ne same content).symm.trans found

/-- Putting anything but an object into a cell leaves a tree. -/
theorem Branching.setContent (branching : Branching s.cells) (id : CellId) {c : Content γ}
    (flat : ∀ keys, c ≠ .object keys) : Branching (s.setContent id c).cells :=
  branching.mono fun _ _ found => object_of_setContent flat found

section AddMember

variable {parent : CellId} {keys : List (String × CellId)}

theorem root_addMember (s : Store γ) (parent : CellId) (key : String) (c : Content γ) :
    (s.addMember parent key c).root = s.root := by
  unfold addMember
  split <;> rfl

theorem content_addMember (object : s.content parent = .object keys) (key : String) (c : Content γ)
    (id : CellId) : (s.addMember parent key c).content id =
      if id = parent then .object (keys ++ [(key, s.cells.size)])
      else if id = s.cells.size then c else s.content id := by
  have inside : parent < s.cells.size := inside_of_object object
  simp only [addMember, object]
  split
  · rename_i same
    subst same
    exact content_setContent_self (by simpa using Nat.lt_succ_of_lt inside) _
  · rename_i other
    rw [content_setContent_of_ne other]
    exact contentOf_push s.cells _ id

/-- An object is the one that has grown, or it was there before. -/
theorem object_of_addMember (object : s.content parent = .object keys) {key : String}
    {c : Content γ} (flat : ∀ keys, c ≠ .object keys) {id : CellId}
    {fields : List (String × CellId)}
    (found : (s.addMember parent key c).content id = .object fields) :
    (id = parent ∧ fields = keys ++ [(key, s.cells.size)]) ∨
      (id ≠ parent ∧ s.content id = .object fields) := by
  rw [content_addMember object] at found
  split at found
  · cases found
    exact .inl ⟨‹_›, rfl⟩
  · split at found
    · exact (flat fields found).elim
    · exact .inr ⟨‹_›, found⟩

/-- A member of an object is the new one, or it was there before. -/
theorem member_of_addMember (object : s.content parent = .object keys) {key : String}
    {c : Content γ} (flat : ∀ keys, c ≠ .object keys) {id : CellId}
    {fields : List (String × CellId)}
    (found : (s.addMember parent key c).content id = .object fields) {member : String × CellId}
    (member_in : member ∈ fields) :
    (id = parent ∧ member = (key, s.cells.size)) ∨
      ∃ before, s.content id = .object before ∧ member ∈ before := by
  obtain ⟨rfl, rfl⟩ | ⟨-, was⟩ := object_of_addMember object flat found
  · exact (List.mem_append.mp member_in).elim (fun old => .inr ⟨keys, object, old⟩)
      fun new => .inl ⟨rfl, List.mem_singleton.mp new⟩
  · exact .inr ⟨fields, was, member_in⟩

theorem Branching.addMember (branching : Branching s.cells) (sound : s.Sound)
    (object : s.content parent = .object keys) {key : String} (fresh : keys.lookup key = none)
    {c : Content γ} (flat : ∀ keys, c ≠ .object keys) :
    Branching (s.addMember parent key c).cells := by
  constructor
  · intro id fields found
    obtain ⟨-, rfl⟩ | ⟨-, was⟩ := object_of_addMember object flat found
    · rw [List.map_append, List.nodup_append]
      refine ⟨branching.distinct parent keys object, by simp, ?_⟩
      rintro name member name' member' rfl
      obtain rfl : name = key := by simpa using member'
      have named := lookup_isSome_iff.mpr member
      rw [fresh] at named
      cases named
    · exact branching.distinct id fields was
  · -- The new member is in no object but the one that has grown, since it was no cell before.
    have old : ∀ id fields, s.content id = .object fields → ∀ name, (name, s.cells.size) ∉ fields :=
      fun id fields was name member => Nat.lt_irrefl _ (sound.members id fields was _ member).1
    intro a b fields others first second name other c member member'
    obtain ⟨rfl, same⟩ | ⟨before, was, member⟩ := member_of_addMember object flat first member
    · obtain ⟨rfl, rfl⟩ := Prod.mk.inj same
      obtain ⟨rfl, same⟩ | ⟨before', was', member'⟩ :=
        member_of_addMember object flat second member'
      · exact ⟨rfl, (Prod.mk.inj same).1.symm⟩
      · exact (old b before' was' other member').elim
    · obtain ⟨rfl, same⟩ | ⟨before', was', member'⟩ :=
        member_of_addMember object flat second member'
      · obtain ⟨rfl, rfl⟩ := Prod.mk.inj same
        exact (old a before was name member).elim
      · exact branching.single a b before before' was was' name other c member member'

theorem Tree.addMember (tree : s.Tree) (object : s.content parent = .object keys) {key : String}
    (fresh : keys.lookup key = none) (v : Value) : (s.addMember parent key (.leaf v)).Tree := by
  refine ⟨tree.sound.addMember parent key nofun, fun id property computed => ?_,
    tree.branching.addMember tree.sound object fresh nofun⟩
  rw [content_addMember object] at computed
  split at computed
  · cases computed
  · split at computed
    · cases computed
    · exact tree.plain id property computed

theorem registry_addMember (object : s.content parent = .object keys) (key : String) (c : Content γ)
    (id : CellId) : (s.addMember parent key c).registry id = s.registry id := by
  simp only [addMember, object, registry_setContent]
  by_cases new : id = s.cells.size
  · simp [registry, new]
  · simp only [registry, Array.getElem?_push, if_neg new]

end AddMember
end ReactiveView.Store
