import ReactiveView.Proofs.Store.Assigning
import ReactiveView.Proofs.Store.Reading
import ReactiveView.Proofs.Value.Members

/-! The numbers of the cells that an object is laid out as. A value takes the cells behind those
that are there, one for each member inside it and the last for itself, and the keys of the members
lead to these cells in the order in which the members are listed. -/
namespace ReactiveView

namespace Path

/-- A key that is read back from a path as it was written. -/
def Literal (key : String) : Prop :=
  Text.trimmed key = key ∧ '.' ∉ key.toList

instance (key : String) : Decidable (Literal key) :=
  inferInstanceAs (Decidable (_ ∧ _))

theorem pieces_literal {key : String} (literal : Literal key) : pieces key = [key] := by
  have whole : Text.pieces (· == '.') key.toList = [key.toList] := by
    refine Text.pieces_of_none fun c member => beq_eq_false_iff_ne.mpr ?_
    rintro rfl
    exact literal.2 member
  rw [pieces, whole, List.map_singleton]
  exact congrArg (fun s => [s]) literal.1

/-- Keys that are joined by dots are read back. -/
theorem pieces_intercalate {keys : List String} (some : keys ≠ [])
    (literal : ∀ key ∈ keys, Literal key) :
    pieces (".".intercalate keys) = keys := by
  induction keys with
  | nil => exact (some rfl).elim
  | cons key rest ih =>
    obtain ⟨first, later⟩ := List.forall_mem_cons.mp literal
    cases rest with
    | nil =>
      rw [String.intercalate_singleton]
      exact pieces_literal first
    | cons next rest =>
      rw [String.intercalate_cons_cons, pieces_join, pieces_literal first,
        ih (List.cons_ne_nil _ _) later]
      rfl

end Path

namespace Store

variable {γ : Type} {s : Store γ}

section LayOut

mutual

theorem layOut_size (cells : Array (Cell γ)) : ∀ v : Value,
    (layOut cells v).1 = cells.size + v.memberCount ∧
      (layOut cells v).2.size = cells.size + v.memberCount + 1
  | .object fields => by
    simp only [layOut, Array.size_push, layOutFields_size cells fields, Value.memberCount, and_self]
  | .null | .bool _ | .number _ | .string _ | .array _ => by
    simp only [layOut, Array.size_push, Value.memberCount, Nat.add_zero, and_self]

theorem layOutFields_size (cells : Array (Cell γ)) : ∀ fields : List (String × Value),
    (layOutFields cells fields).2.size = cells.size + Value.memberCountOf fields
  | [] => rfl
  | (_, v) :: rest => by
    simp only [layOutFields, layOutFields_size (layOut cells v).2 rest, (layOut_size cells v).2,
      Value.memberCountOf]
    omega

end

/-- Where keys lead from an object with these members. -/
def reach (s : Store γ) (fields : List (String × CellId)) : List String → Option CellId
  | [] => none
  | key :: rest => (fields.lookup key).bind fun child => s.descend? child rest

theorem reach_cons_self (s : Store γ) (key : String) (child : CellId)
    (fields : List (String × CellId)) (keys : List String) :
    s.reach ((key, child) :: fields) (key :: keys) = s.descend? child keys := by
  rw [reach, List.lookup_cons_self, Option.bind_some]

theorem reach_cons_of_ne (s : Store γ) {key other : String} (apart : other ≠ key) (child : CellId)
    (fields : List (String × CellId)) (keys : List String) :
    s.reach ((key, child) :: fields) (other :: keys) = s.reach fields (other :: keys) := by
  rw [reach, reach, List.lookup_cons, beq_eq_false_iff_ne.mpr apart]

theorem descend?_object {a : CellId} {fields : List (String × CellId)}
    (object : s.content a = .object fields) {keys : List String} (some : keys ≠ []) :
    s.descend? a keys = s.reach fields keys := by
  cases keys with
  | nil => exact (some rfl).elim
  | cons key rest => simp only [descend?, child?, object, reach]

mutual

/-- The members of a value are in its cells, in the order of the listing. -/
theorem descend?_layOut (cells : Array (Cell γ)) : ∀ v : Value, v.Canonical →
    (∀ id, id < (layOut cells v).2.size → s.content id = contentOf (layOut cells v).2 id) →
      v.members.map (fun m => s.descend? (layOut cells v).1 m.1) =
        (List.range' cells.size v.memberCount).map some
  | .object fields, canonical, agrees => by
    simp only [layOut, Array.size_push] at agrees ⊢
    have object : s.content (layOutFields cells fields).2.size =
        .object (layOutFields cells fields).1 := by
      rw [agrees _ (Nat.lt_succ_self _), contentOf_push, if_pos rfl]
    have inner : ∀ id, id < (layOutFields cells fields).2.size →
        s.content id = contentOf (layOutFields cells fields).2 id := by
      intro id inside
      rw [agrees id (Nat.lt_succ_of_lt inside), contentOf_push, if_neg (Nat.ne_of_lt inside)]
    rw [Value.members, Value.memberCount,
      ← reach_layOutFields cells fields canonical.1 canonical.2 inner]
    refine List.map_congr_left fun m member => descend?_object object ?_
    obtain ⟨key, rest, same, -⟩ := Value.exists_of_mem_membersOf member
    exact same ▸ List.cons_ne_nil key rest
  | .null, _, _ | .bool _, _, _ | .number _, _, _ | .string _, _, _ | .array _, _, _ => rfl

theorem reach_layOutFields (cells : Array (Cell γ)) : ∀ fields : List (String × Value),
    Fields.Ascending fields → Value.CanonicalFields fields →
    (∀ id, id < (layOutFields cells fields).2.size →
      s.content id = contentOf (layOutFields cells fields).2 id) →
      (Value.membersOf fields).map (fun m => s.reach (layOutFields cells fields).1 m.1) =
        (List.range' cells.size (Value.memberCountOf fields)).map some
  | [], _, _, _ => rfl
  | (key, v) :: rest, ascending, canonical, agrees => by
    obtain ⟨above, ordered⟩ := List.pairwise_cons.mp ascending
    obtain ⟨more, keeps⟩ := layOutFields_frame (layOut cells v).2 rest
    obtain ⟨number, size⟩ := layOut_size cells v
    simp only [layOutFields] at agrees ⊢
    -- The first key leads on from the cell of its value, the others pass it by.
    have later : ∀ m ∈ Value.membersOf rest,
        s.reach ((key, (layOut cells v).1) :: (layOutFields (layOut cells v).2 rest).1) m.1 =
          s.reach (layOutFields (layOut cells v).2 rest).1 m.1 := by
      intro m member
      obtain ⟨other, keys, same, listed⟩ := Value.exists_of_mem_membersOf member
      obtain ⟨field, field_in, rfl⟩ := List.mem_map.mp listed
      rw [same]
      exact s.reach_cons_of_ne (String.ne_of_lt (above field field_in)).symm _ _ _
    have inside := descend?_layOut cells v canonical.1 fun id inside =>
      (agrees id (Nat.lt_of_lt_of_le inside more)).trans (keeps id inside)
    have behind := reach_layOutFields (layOut cells v).2 rest ordered canonical.2 agrees
    rw [size] at behind
    calc
      _ = v.members.map (fun m => s.descend? (layOut cells v).1 m.1) ++ some (layOut cells v).1 ::
          (Value.membersOf rest).map fun m =>
            s.reach (layOutFields (layOut cells v).2 rest).1 m.1 := by
        rw [Value.membersOf, List.map_append, List.map_cons, List.map_map,
          List.map_congr_left later]
        simp only [Function.comp_def, reach_cons_self, descend?]
      _ = (List.range' cells.size v.memberCount ++ (cells.size + v.memberCount) ::
          List.range' (cells.size + v.memberCount + 1) (Value.memberCountOf rest)).map some := by
        rw [inside, behind, number, List.map_append, List.map_cons]
      _ = (List.range' cells.size (Value.memberCountOf ((key, v) :: rest))).map some := by
        rw [← List.range'_succ, List.range'_append_1, Value.memberCountOf]
        congr 2
        omega

end

end LayOut

/-- Every cell that keys lead to is one of the store. -/
theorem descend?_inside (sound : s.Sound) {key : String} {rest : List String} {a b : CellId}
    (reached : s.descend? a (key :: rest) = some b) : b < s.cells.size := by
  induction rest generalizing key a with
  | nil =>
    obtain ⟨child, member, same⟩ := Option.bind_eq_some_iff.mp reached
    obtain rfl := Option.some.inj same
    exact (sound.child member).1
  | cons next rest ih =>
    obtain ⟨child, -, further⟩ := Option.bind_eq_some_iff.mp reached
    exact ih further

section Numbers

variable {fields : List (String × Value)}

theorem size_ofValue (fields : List (String × Value)) :
    (ofValue (.object fields) : Store γ).root = (Value.object fields).memberCount ∧
      (ofValue (.object fields) : Store γ).cells.size = (Value.object fields).memberCount + 1 := by
  obtain ⟨number, size⟩ := layOut_size (#[] : Array (Cell γ)) (.object fields)
  exact ⟨by simpa [ofValue] using number, by simpa [ofValue] using size⟩

/-- The members of an object are in the cells of their places in the listing. -/
theorem descend?_ofValue (canonical : (Value.object fields).Canonical) {i : Nat}
    {keys : List String} {v : Value} (listed : (Value.object fields).members[i]? = some (keys, v)) :
    (ofValue (.object fields) : Store γ).descend? (ofValue (.object fields) : Store γ).root keys =
      some i := by
  have numbered :=
    descend?_layOut (s := (ofValue (.object fields) : Store γ)) #[] (.object fields) canonical
    fun _ _ => rfl
  have bound : i < (Value.object fields).memberCount := by
    rw [← Value.length_members]
    exact (List.getElem?_eq_some_iff.mp listed).1
  have here := congrArg (·[i]?) numbered
  simp only [List.getElem?_map, listed, List.getElem?_range' bound, Option.map_some] at here
  simpa [ofValue] using here

/-- Keys lead to a cell exactly if they are those of a member, whose place in the listing it has. -/
theorem descend?_eq_idxOf? (canonical : (Value.object fields).Canonical) {keys : List String}
    (some : keys ≠ []) :
    (ofValue (.object fields) : Store γ).descend? (ofValue (.object fields) : Store γ).root keys =
      ((Value.object fields).members.map Prod.fst).idxOf? keys := by
  have tree : (ofValue (.object fields) : Store γ).Tree := tree_ofValue canonical
  obtain ⟨root, size⟩ := size_ofValue (γ := γ) fields
  cases place : ((Value.object fields).members.map Prod.fst).idxOf? keys with
  | some i =>
    obtain ⟨inside, same, -⟩ := List.idxOf?_eq_some_iff.mp place
    have inside' : i < (Value.object fields).members.length := by simpa using inside
    rw [List.getElem_map] at same
    exact descend?_ofValue canonical (List.getElem?_eq_some_iff.mpr ⟨inside', Prod.ext same rfl⟩)
  | none =>
    refine Option.eq_none_iff_forall_ne_some.mpr fun c reached => ?_
    obtain ⟨key, rest, rfl⟩ := List.exists_cons_of_ne_nil some
    -- A cell other than the root is that of a member, and only the keys of the member lead to it.
    have notRoot : c ≠ (ofValue (.object fields) : Store γ).root := by
      rintro rfl
      exact descend?_cons_ne tree.sound reached
    have inside := descend?_inside tree.sound reached
    have bound : c < (Value.object fields).members.length := by
      rw [Value.length_members]
      lia
    have listed :
        (Value.object fields).members[c]? = Option.some (Value.object fields).members[c] :=
      List.getElem?_eq_getElem bound
    have same := descend?_injective tree (descend?_ofValue canonical listed) reached
    exact List.idxOf?_eq_none_iff.mp place (List.mem_map.mpr ⟨_, List.getElem_mem bound, same⟩)

/-- What is reached by way of objects is reached by any way. -/
theorem at?_of_memberAt? {keys : List String} {v w : Value} (found : v.memberAt? keys = some w) :
    v.at? keys = some w := by
  induction keys generalizing v with
  | nil => exact found
  | cons key rest ih =>
    cases v with
    | object fields =>
      obtain ⟨member, named, further⟩ := Option.bind_eq_some_iff.mp found
      exact Option.bind_eq_some_iff.mpr ⟨member, named, ih further⟩
    | _ => cases found

/-- An object that is laid out keeps all its data, and its cells are numbered in post-order: those
of its members come in the order in which these are listed, and the root comes last. The cell at a
path is the place of the member that the path names, and there is none where no member is named by
way of objects. -/
theorem laid_out_in_postorder {fields : List (String × Value)} {D : Value} {s : Store γ}
    (data : D = .object fields) (canonical : D.Canonical) (laid : s = ofValue D) :
    s.snapshot = D ∧ s.cells.size = 1 + D.memberCount ∧ s.root = D.memberCount ∧
      (D.members.length = D.memberCount ∧ (D.members.map Prod.fst).Nodup ∧
        D.members.Pairwise (fun m m' => Value.Before m.1 m'.1) ∧
        ∀ keys v, (keys, v) ∈ D.members ↔ keys ≠ [] ∧ D.memberAt? keys = some v) ∧
      (∀ i keys v, D.members[i]? = some (keys, v) →
        s.descend? s.root keys = some i ∧ s.snapshotOf i = v) ∧
      ∀ keys, keys ≠ [] → (∀ key ∈ keys, Path.Literal key) →
        s.cellAt? (".".intercalate keys) = (D.members.map Prod.fst).idxOf? keys ∧
          (s.cellAt? (".".intercalate keys) = none ↔ D.memberAt? keys = none) := by
  subst data laid
  have tree : (ofValue (.object fields) : Store γ).Tree := tree_ofValue canonical
  have whole : (ofValue (.object fields) : Store γ).snapshot = .object fields :=
    snapshot_ofValue canonical
  obtain ⟨root, size⟩ := size_ofValue (γ := γ) fields
  have listing : ∀ keys v, (keys, v) ∈ (Value.object fields).members ↔
      keys ≠ [] ∧ (Value.object fields).memberAt? keys = some v :=
    fun keys v => Value.mem_members_iff _ keys v canonical
  refine ⟨whole, by lia, root, ⟨Value.length_members _, Value.nodup_members canonical,
    Value.pairwise_members _ canonical, listing⟩, fun i keys v listed => ?_,
      fun keys nonempty literal => ?_⟩
  · have reached := descend?_ofValue (γ := γ) canonical listed
    have value := at?_snapshotOf tree reached
    rw [show snapshotOf _ _ = _ from whole,
      at?_of_memberAt? ((listing keys v).mp (List.mem_of_getElem? listed)).2] at value
    exact ⟨reached, (Option.some.inj value).symm⟩
  · rw [cellAt?, Path.pieces_intercalate nonempty literal, descend?_eq_idxOf? canonical nonempty,
      List.idxOf?_eq_none_iff]
    refine ⟨rfl, fun absent => Option.eq_none_iff_forall_ne_some.mpr fun v found => ?_,
      fun absent member => ?_⟩
    · exact absent (List.mem_map.mpr ⟨(keys, v), (listing keys v).mpr ⟨nonempty, found⟩, rfl⟩)
    · obtain ⟨⟨keys, v⟩, listed, rfl⟩ := List.mem_map.mp member
      exact Option.some_ne_none v (((listing keys v).mp listed).2.symm.trans absent)

/-- Data with an object and an array inside. -/
def cabinet : Value :=
  .object [("book", .object [("pages", .array [.object [("x", .null)]]), ("title", .string "t")]),
    ("open", .bool true)]

theorem cabinet_numbered : (ofValue cabinet : Store Unit).snapshot = cabinet ∧
    (ofValue cabinet : Store Unit).cells.size = 5 ∧ (ofValue cabinet : Store Unit).root = 4 ∧
    (ofValue cabinet : Store Unit).cellAt? (".".intercalate ["book", "title"]) = some 1 ∧
    (ofValue cabinet : Store Unit).cellAt? (".".intercalate ["book", "pages", "0"]) = none := by
  have canonical : cabinet.Canonical := by
    simp only [cabinet, Value.Canonical, Value.CanonicalItems, Value.CanonicalFields,
      Fields.Ascending]
    decide +kernel
  obtain ⟨whole, size, root, -, -, cell⟩ :=
    laid_out_in_postorder (γ := Unit) (D := cabinet) rfl canonical rfl
  refine ⟨whole, size, root, ?_, ?_⟩
  · rw [(cell ["book", "title"] (by decide) (by decide)).1]
    rfl
  · rw [(cell ["book", "pages", "0"] (by decide) (by decide)).1]
    rfl

end Numbers

end Store
end ReactiveView
