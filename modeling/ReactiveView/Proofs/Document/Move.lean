import ReactiveView.Proofs.Document.Moving

/-! The moves that all operations on documents are made of. Every move keeps a document well formed.
Only taking a slot can give a node another kind or tag, and it never takes the slot of a node that
is sheltered: held, or reached by way of children from the root or from a node that is held. -/
namespace ReactiveView.Document

variable {ℓ : Type} {doc doc' : Document ℓ} {held : NodeId → Bool}

inductive Sheltered (held : NodeId → Bool) (doc : Document ℓ) : NodeId → Prop
  | root : Sheltered held doc rootId
  | held {n : NodeId} : held n = true → Sheltered held doc n
  | child {p c : NodeId} : Sheltered held doc p → c ∈ (doc.node p).children → Sheltered held doc c

theorem Allocates.apart {n : Node ℓ} {id m : NodeId} (allocated : Allocates held doc doc' n id)
    (formed : doc.WellFormed) (inside : ∀ m, held m = true → m < doc.size)
    (sheltered : Sheltered held doc m) : m ≠ id := by
  cases sheltered with
  | root => exact (allocated.ne_root formed).symm
  | held isHeld =>
    rintro rfl
    obtain fresh | ⟨-, -, -, free⟩ := allocated.slot
    · exact Nat.ne_of_lt (inside m isHeld) fresh
    · cases isHeld.symm.trans free
  | child _ member =>
    rintro rfl
    cases allocated.top.symm.trans ((formed.links _ _).mp member)

inductive Move (ℓ : Type) where
  | alloc (n : Node ℓ)
  | append (parent child : NodeId)
  | clear (id : NodeId)
  | write (id : NodeId) (f : Node ℓ → Node ℓ)
  | clearMutations

namespace Move

def apply (held : NodeId → Bool) (doc : Document ℓ) : Move ℓ → Document ℓ
  | .alloc n => (doc.alloc held n).2
  | .append parent child => doc.append parent child
  | .clear id => doc.clearChildren id
  | .write id f => doc.update id f
  | .clearMutations => doc.clearMutations

/-- A new node has no place yet, a parent is a node of the document, and a write keeps the kind, the
tag and the place of the node. -/
def Fits (doc : Document ℓ) : Move ℓ → Prop
  | .alloc n => n.parent = none ∧ n.children = [] ∧ n.released = false
  | .append parent _ => parent < doc.size
  | .write _ f => ∀ n, (f n).kind = n.kind ∧ (f n).tag = n.tag ∧ (f n).parent = n.parent ∧
      (f n).children = n.children ∧ (f n).released = n.released
  | _ => True

end Move

theorem size_place (doc : Document ℓ) (parent child : NodeId) :
    (doc.place parent child).size = doc.size := by
  unfold place detach
  split <;> simp only [size_update]

theorem size_placeAll (children : List NodeId) (doc : Document ℓ) (parent : NodeId) :
    (children.foldl (fun doc c => doc.place parent c) doc).size = doc.size := by
  induction children generalizing doc with
  | nil => rfl
  | cons c rest ih => rw [List.foldl_cons, ih, size_place]

theorem node_clearMutations (doc : Document ℓ) (n : NodeId) :
    doc.clearMutations.node n = { doc.node n with mutations := {} } := by
  simp only [node, clearMutations, Array.getElem?_map]
  cases doc.nodes[n]? <;> rfl

theorem sameForest_clearMutations (doc : Document ℓ) : SameForest doc doc.clearMutations := by
  refine ⟨by simp [size, clearMutations], fun n => ?_, fun n => ?_, fun n => ?_, fun n => ?_,
    fun _ waits _ => waits⟩
  all_goals rw [node_clearMutations]

theorem WellFormed.move (formed : doc.WellFormed) {m : Move ℓ} (fits : m.Fits doc) :
    (m.apply held doc).WellFormed := by
  cases m with
  | alloc n => exact (allocates_alloc formed held n).wellFormed formed fits.1 fits.2.1 fits.2.2
  | append parent child => exact formed.append fits child
  | clear id => exact formed.clearChildren id
  | write id f =>
    exact formed.sameForest (sameForest_update (fun n => (fits n).1) (fun n => (fits n).2.2.1)
      (fun n => (fits n).2.2.2.1) fun n => (fits n).2.2.2.2)
  | clearMutations => exact formed.sameForest (sameForest_clearMutations doc)

theorem own_place (doc : Document ℓ) (parent child n : NodeId) :
    ((doc.place parent child).node n).own = (doc.node n).own := by
  have detached : ((doc.detach child).node n).own = (doc.node n).own := by
    unfold detach
    split
    · rfl
    · rw [update_keeps Node.own, update_keeps Node.own] <;> exact fun _ => rfl
  unfold place
  rw [update_keeps Node.own, update_keeps Node.own, detached] <;> exact fun _ => rfl

theorem own_placeAll (children : List NodeId) (doc : Document ℓ) (parent n : NodeId) :
    ((children.foldl (fun doc c => doc.place parent c) doc).node n).own = (doc.node n).own := by
  induction children generalizing doc with
  | nil => rfl
  | cons c rest ih => rw [List.foldl_cons, ih, own_place]

theorem Sheds.own_of {id : NodeId} (dropped : Sheds doc doc' id) (n : NodeId) :
    (doc'.node n).own = (doc.node n).own := by
  by_cases same : n = id
  · rw [same, dropped.own]
  · have kept := congrArg Node.own (dropped.content n same)
    exact kept

/-- Moving a node changes no more than places and the traces of moving. -/
theorem WellFormed.own_append (formed : doc.WellFormed) (parent child n : NodeId) :
    ((doc.append parent child).node n).own = (doc.node n).own := by
  unfold Document.append
  split
  · rfl
  · split
    · rw [own_placeAll, (sheds_emptyFragment formed child).own_of]
    · exact own_place doc parent child n

theorem WellFormed.own_clearChildren (formed : doc.WellFormed) (id n : NodeId) :
    ((doc.clearChildren id).node n).own = (doc.node n).own := by
  rw [clearChildren_eq]
  split
  · rfl
  · rw [update_keeps Node.own]
    · exact (sheds formed id doc.free).own_of n
    · exact fun _ => rfl

theorem WellFormed.size_append (formed : doc.WellFormed) (parent child : NodeId) :
    (doc.append parent child).size = doc.size := by
  unfold Document.append
  split
  · rfl
  · split
    · rw [size_placeAll, (sheds_emptyFragment formed child).size]
    · exact size_place doc parent child

theorem WellFormed.size_clearChildren (formed : doc.WellFormed) (id : NodeId) :
    (doc.clearChildren id).size = doc.size := by
  rw [clearChildren_eq]
  split
  · rfl
  · rw [size_update]
    exact (sheds formed id doc.free).size

/-- No move takes slots away. -/
theorem WellFormed.size_move (formed : doc.WellFormed) (m : Move ℓ) :
    doc.size ≤ (m.apply held doc).size := by
  cases m with
  | alloc n => exact (allocates_alloc formed held n).size_le
  | append parent child => exact Nat.le_of_eq (formed.size_append parent child).symm
  | clear id => exact Nat.le_of_eq (formed.size_clearChildren id).symm
  | write id f => exact Nat.le_of_eq (size_update doc id f).symm
  | clearMutations => simp [Move.apply, clearMutations, size]

/-- What a node is made of changes only if its slot is taken. -/
theorem WellFormed.kind_tag_move (formed : doc.WellFormed) {m : Move ℓ} (fits : m.Fits doc)
    {id : NodeId} (kept : ∀ n, m = .alloc n → (doc.alloc held n).1 ≠ id) :
    ((m.apply held doc).node id).kind = (doc.node id).kind ∧
      ((m.apply held doc).node id).tag = (doc.node id).tag := by
  have of_own : ∀ doc' : Document ℓ, (doc'.node id).own = (doc.node id).own →
      (doc'.node id).kind = (doc.node id).kind ∧ (doc'.node id).tag = (doc.node id).tag :=
    fun doc' same => ⟨(Node.own_inj same).1, (Node.own_inj same).2.1⟩
  cases m with
  | alloc n =>
    exact of_own _ (Node.content_inj
      ((allocates_alloc formed held n).content id (kept n rfl).symm)).1
  | append parent child => exact of_own _ (formed.own_append parent child id)
  | clear cleared => exact of_own _ (formed.own_clearChildren cleared id)
  | write written f =>
    exact ⟨update_keeps Node.kind (fun n => (fits n).1) id,
      update_keeps Node.tag (fun n => (fits n).2.1) id⟩
  | clearMutations => exact of_own _ (by rw [Move.apply, node_clearMutations]; rfl)

end ReactiveView.Document
