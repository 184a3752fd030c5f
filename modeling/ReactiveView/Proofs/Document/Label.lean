import ReactiveView.Proofs.Document.Rehanging

/-! Nodes whose whole content is one text. Setting the text of a node leaves it with that text,
unless the node was dropped and its slot goes to the text itself. -/
namespace ReactiveView.Document

variable {ℓ : Type} {held : NodeId → Bool} {doc doc' : Document ℓ} {id n : NodeId} {text : String}

/-- The only child of the node is a text node with this text. The empty text may have no node. -/
def Labelled (doc : Document ℓ) (n : NodeId) (text : String) : Prop :=
  (doc.node n).children = [] ∧ text = "" ∨ ∃ c, (doc.node n).children = [c] ∧
    (doc.node c).kind = .text ∧ (doc.node c).data = text

theorem Labelled.congr (labelled : doc.Labelled n text)
    (children : (doc'.node n).children = (doc.node n).children)
    (own : ∀ c ∈ (doc.node n).children, (doc'.node c).kind = (doc.node c).kind ∧
      (doc'.node c).data = (doc.node c).data) : doc'.Labelled n text := by
  obtain ⟨none, isEmpty⟩ | ⟨c, only, isText, data⟩ := labelled
  · exact .inl ⟨children.trans none, isEmpty⟩
  · obtain ⟨kind, same⟩ := own c (only ▸ List.mem_singleton_self c)
    exact .inr ⟨c, children.trans only, kind.trans isText, same.trans data⟩

theorem innerMarkup_eq (inside : n < doc.size) : ∃ levels, doc.innerMarkup n =
    Branch.markupAll ((doc.node n).children.map (doc.branchTo levels)) := by
  obtain ⟨levels, size⟩ := Nat.exists_eq_add_of_lt (Nat.zero_lt_of_lt inside)
  refine ⟨levels, ?_⟩
  rw [innerMarkup, branch, size, Nat.zero_add]
  rfl

theorem innerMarkup_of_childless (inside : n < doc.size) (childless : (doc.node n).children = []) :
    doc.innerMarkup n = [] := by
  obtain ⟨levels, inner⟩ := innerMarkup_eq inside
  rw [inner, childless]
  rfl

/-- A node with one child, a text node, has the markup of that text, whatever is below
the text node. -/
theorem innerMarkup_of_text {c : NodeId} (inside : n < doc.size)
    (only : (doc.node n).children = [c])
    (isText : (doc.node c).kind = .text) : doc.innerMarkup n = [.text (doc.node c).data] := by
  obtain ⟨levels, inner⟩ := innerMarkup_eq inside
  have leaf : (doc.branchTo levels c).markup = [.text (doc.node c).data] := by
    cases levels <;> simp only [branchTo, Branch.markup, isText]
  rw [inner, only, List.map_singleton, Branch.markupAll, leaf]
  rfl

/-- The text of a node that is no character data is that of its markup. -/
theorem textContent_eq (inner : (doc.node n).isCharacterData = false) :
    doc.textContent n = Markup.textContentAll (doc.innerMarkup n) := by
  rw [textContent, inner, if_neg Bool.false_ne_true]

/-- What is read off the node is the text. -/
theorem Labelled.textContent (labelled : doc.Labelled n text) (inside : n < doc.size)
    (inner : (doc.node n).isCharacterData = false) : doc.textContent n = text := by
  rw [textContent_eq inner]
  obtain ⟨none, rfl⟩ | ⟨c, only, isText, rfl⟩ := labelled
  · rw [innerMarkup_of_childless inside none]
    rfl
  · rw [innerMarkup_of_text inside only isText]
    exact String.append_empty

/-- Moving the children of other nodes leaves the text of a node. -/
theorem Rehangs.labelled {a b : NodeId} (rehangs : Rehangs a b doc doc') (formed : doc.WellFormed)
    (lower : n ≠ a) (elsewhere : n ≠ b) (labelled : doc.Labelled n text) :
    doc'.Labelled n text := by
  have same : ∀ c, c ∈ (doc'.node n).children ↔ c ∈ (doc.node n).children := by
    intro c
    rw [formed.links, rehangs.formed.links, rehangs.parent]
    split
    · rename_i top
      simp [top, lower.symm, elsewhere.symm]
    · rfl
  have children : (doc'.node n).children.Perm (doc.node n).children :=
    (List.perm_ext_iff_of_nodup (rehangs.formed.distinct n) (formed.distinct n)).mpr same
  refine labelled.congr ?_ fun c _ => ?_
  · obtain ⟨none, -⟩ | ⟨c, only, -⟩ := labelled
    · rw [none] at children ⊢
      exact children.eq_nil
    · rw [only] at children ⊢
      exact List.perm_singleton.mp children
  · have own := Node.own_inj (rehangs.own c)
    exact ⟨own.1, own.2.2.2.1⟩

/-- A new node is linked into the child list of a node whose slot is not taken. -/
theorem relinks_adopt (formed : doc.WellFormed) (inside : id < doc.size) {n : Node ℓ}
    (new : (Move.alloc n).Fits doc) (inner : n.kind ≠ .fragment)
    (apart : id ≠ (doc.alloc held n).1) :
    Relinks (doc.alloc held n).2 (doc.adopt held id n).2 (some id) (doc.alloc held n).1 := by
  have allocated := allocates_alloc formed held n
  have formed' := allocated.wellFormed formed new.1 new.2.1 new.2.2
  have notAbove : ¬ Above (doc.alloc held n).2 (doc.alloc held n).1 id := by
    intro above
    obtain ⟨y, child, -⟩ := above.first
    have member := (formed'.links _ y).mpr child
    rw [allocated.new, new.2.1] at member
    cases member
  have placeable := placeable_of_inner (by rwa [allocated.new]) apart notAbove
  show Relinks _ ((doc.alloc held n).2.append id (doc.alloc held n).1) _ _
  rw [append_of_placeable formed' placeable]
  exact placeable.relinks formed' (Nat.lt_of_lt_of_le inside allocated.size_le)

/-- A node whose slot is not taken gets a new child at the end of its children. -/
theorem children_adopt_of_ne (formed : doc.WellFormed) (inside : id < doc.size) {n : Node ℓ}
    (new : (Move.alloc n).Fits doc) (inner : n.kind ≠ .fragment) (apart : id ≠ (doc.alloc held n).1)
    (m : NodeId) : ((doc.adopt held id n).2.node m).children =
      ((doc.alloc held n).2.node m).children ++ if m = id then [(doc.alloc held n).1] else [] := by
  have allocated := allocates_alloc formed held n
  have formed' := allocated.wellFormed formed new.1 new.2.1 new.2.2
  have loose : ((doc.alloc held n).2.node (doc.alloc held n).1).parent ≠ some m := by
    rw [allocated.new, new.1]
    nofun
  rw [(relinks_adopt formed inside new inner apart).children, formed'.filter_children loose]
  simp only [Option.some.injEq, eq_comm]

theorem labelled_flagText (labelled : doc.Labelled n text) :
    (doc.update id flagText).Labelled n text :=
  labelled.congr (update_keeps (f := flagText) Node.children (fun _ => rfl) n) fun c _ =>
    ⟨update_keeps (f := flagText) Node.kind (fun _ => rfl) c,
      update_keeps (f := flagText) Node.data (fun _ => rfl) c⟩

/-- Clearing a child list leaves the node where it is. -/
theorem node_clearChildren (formed : doc.WellFormed) (id : NodeId) :
    ((doc.clearChildren id).node id).children = [] ∧
      ((doc.clearChildren id).node id).parent = (doc.node id).parent := by
  rw [clearChildren_eq]
  split
  · exact ⟨‹_›, rfl⟩
  · have dropped := sheds formed id doc.free
    have notBelow : (doc.node id).parent ≠ some id := fun self =>
      formed.not_above_self id (.parent self)
    refine ⟨(update_keeps (f := flagChildren) Node.children (fun _ => rfl) id).trans
      dropped.childless, ?_⟩
    exact (update_keeps (f := flagChildren) Node.parent (fun _ => rfl) id).trans
      ((dropped.parent id).trans (if_neg notBelow))

/-- A node that hangs somewhere keeps its slot when its children are cleared and a slot is taken. -/
theorem not_taken_of_parent (formed : doc.WellFormed) {p : NodeId}
    (parent : (doc.node id).parent = some p) (n : Node ℓ) :
    id ≠ ((doc.clearChildren id).alloc held n).1 := by
  intro same
  have top := (allocates_alloc (formed.clearChildren id) held n).top
  rw [← same, (node_clearChildren formed id).2, parent] at top
  cases top

/-- So does a node that is held. -/
theorem not_taken_of_held (formed : doc.WellFormed) (bounded : ∀ n, held n = true → n < doc.size)
    (isHeld : held id = true) (n : Node ℓ) : id ≠ ((doc.clearChildren id).alloc held n).1 := by
  have formed' := formed.clearChildren id
  refine (allocates_alloc formed' held n).apart formed' (fun m isHeld => ?_) (.held isHeld)
  exact formed.size_clearChildren id ▸ bounded m isHeld

section Setting

variable (formed : doc.WellFormed) (inside : id < doc.size)
variable (kept : ∀ n, id ≠ ((doc.clearChildren id).alloc held n).1)
include formed inside kept

theorem labelled_replaceByText (text : String) :
    (doc.replaceByText held id text).Labelled id text := by
  obtain ⟨childless, -⟩ := node_clearChildren formed id
  refine labelled_flagText ?_
  split
  · exact .inl ⟨childless, ‹_›⟩
  · have formed' := formed.clearChildren id
    let leaf : Node ℓ := { kind := .text, data := text }
    have allocated := allocates_alloc formed' held leaf
    have children := children_adopt_of_ne formed' (formed.size_clearChildren id ▸ inside)
      (n := leaf) ⟨rfl, rfl, rfl⟩ nofun (kept leaf) id
    have formed₁ := allocated.wellFormed formed' rfl rfl rfl
    have own :=
      Node.own_inj ((formed₁.own_append id ((doc.clearChildren id).alloc held leaf).1 _).trans
      (congrArg Node.own allocated.new))
    rw [if_pos rfl, allocated.children (kept leaf), childless, List.nil_append] at children
    exact .inr ⟨_, children, own.1, own.2.2.2.1⟩

/-- Setting the text of a node that keeps its slot. -/
theorem labelled_setTextContent (inner : (doc.node id).isCharacterData = false) (text : String) :
    (doc.setTextContent held id text).Labelled id text := by
  unfold setTextContent
  rw [if_neg (by simp [inner])]
  split
  · split
    · exact .inl ⟨‹_›, ‹_›⟩
    · exact labelled_replaceByText formed inside kept text
  · cases only : doc.onlyText? id with
    | none => exact labelled_replaceByText formed inside kept text
    | some child =>
      obtain ⟨alone, isText⟩ := onlyText?_eq_some_iff.mp only
      have below := (parent_of_onlyText? formed only).1
      dsimp only
      split
      · exact .inr ⟨child, alone, isText, ‹_›⟩
      · rename_i differs
        let write : Node ℓ → Node ℓ := fun n =>
          { n with data := text, mutations := { n.mutations with text := true } }
        rw [setData, if_neg differs]
        refine labelled_flagText (.inr ⟨child, ?_, ?_, ?_⟩)
        · exact (update_keeps (f := write) Node.children (fun _ => rfl) id).trans alone
        · exact (update_keeps (f := write) Node.kind (fun _ => rfl) child).trans isText
        · rw [node_update_self (inside_of_parent below)]

end Setting

end ReactiveView.Document
