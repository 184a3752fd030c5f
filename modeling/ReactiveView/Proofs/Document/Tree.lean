import ReactiveView.Document.Content

/-! Well-formed documents: the parent links and the child lists describe one forest, in which
fragments are roots, and the released nodes are roots that are on the free list. -/
namespace ReactiveView

/-- A node apart from its place: all but its parent and whether it is released. -/
def Node.content {ℓ : Type} (n : Node ℓ) : Node ℓ :=
  { n with parent := none, released := false }

/-- A node with nothing of its place in the tree, nor of the traces that moving leaves. -/
def Node.own {ℓ : Type} (n : Node ℓ) : Node ℓ :=
  { n with parent := none, children := [], released := false, mutations := {} }

theorem Node.own_inj {ℓ : Type} {m n : Node ℓ} (same : m.own = n.own) :
    m.kind = n.kind ∧ m.tag = n.tag ∧ m.attributes = n.attributes ∧ m.data = n.data ∧
      m.value = n.value ∧ m.listeners = n.listeners := by
  simpa [own] using same

theorem Node.content_inj {ℓ : Type} {m n : Node ℓ} (same : m.content = n.content) :
    m.own = n.own ∧ m.children = n.children ∧ m.mutations = n.mutations := by
  simp only [content, mk.injEq] at same
  simp [own, same]

namespace Document

variable {ℓ : Type} {doc doc' : Document ℓ} {id : NodeId}

structure WellFormed (doc : Document ℓ) : Prop where
  inhabited : 0 < doc.size
  links : ∀ p c, c ∈ (doc.node p).children ↔ (doc.node c).parent = some p
  distinct : ∀ p, (doc.node p).children.Nodup
  acyclic : WellFounded fun p c => (doc.node c).parent = some p
  fragments : ∀ n, (doc.node n).kind = .fragment → (doc.node n).parent = none
  root_fragment : (doc.node rootId).kind = .fragment
  root_kept : (doc.node rootId).released = false
  waiting : ∀ n, (doc.node n).released = true → (doc.node n).parent = none ∧ n ∈ doc.free

/-- The same forest and the same released nodes, all of them still on the free list. -/
structure SameForest (doc doc' : Document ℓ) : Prop where
  size : doc'.size = doc.size
  kind : ∀ n, (doc'.node n).kind = (doc.node n).kind
  parent : ∀ n, (doc'.node n).parent = (doc.node n).parent
  children : ∀ n, (doc'.node n).children = (doc.node n).children
  released : ∀ n, (doc'.node n).released = (doc.node n).released
  free : ∀ n ∈ doc.free, (doc.node n).released = true → n ∈ doc'.free

theorem SameForest.refl (doc : Document ℓ) : SameForest doc doc :=
  ⟨rfl, fun _ => rfl, fun _ => rfl, fun _ => rfl, fun _ => rfl, fun _ waits _ => waits⟩

theorem SameForest.trans {doc'' : Document ℓ} (first : SameForest doc doc')
    (second : SameForest doc' doc'') : SameForest doc doc'' where
  size := second.size.trans first.size
  kind n := (second.kind n).trans (first.kind n)
  parent n := (second.parent n).trans (first.parent n)
  children n := (second.children n).trans (first.children n)
  released n := (second.released n).trans (first.released n)
  free n waits released :=
    second.free n (first.free n waits released) ((first.released n).trans released)

theorem WellFormed.sameForest (formed : doc.WellFormed) (same : SameForest doc doc') :
    doc'.WellFormed where
  inhabited := same.size ▸ formed.inhabited
  links p c := by rw [same.children, same.parent, formed.links]
  distinct p := same.children p ▸ formed.distinct p
  acyclic := by simpa only [same.parent] using formed.acyclic
  fragments n fragment := by
    rw [same.parent, formed.fragments n (same.kind n ▸ fragment)]
  root_fragment := (same.kind rootId).trans formed.root_fragment
  root_kept := (same.released rootId).trans formed.root_kept
  waiting n released := by
    rw [same.released] at released
    obtain ⟨top, waits⟩ := formed.waiting n released
    exact ⟨(same.parent n).trans top, same.free n waits released⟩

theorem node_of_outside (outside : doc.size ≤ id) : doc.node id = { kind := .fragment } := by
  simp only [size] at outside
  simp [node, Array.getElem?_eq_none outside]

theorem node_update (doc : Document ℓ) (id n : NodeId) (f : Node ℓ → Node ℓ) :
    (doc.update id f).node n = if n = id ∧ id < doc.size then f (doc.node id) else doc.node n := by
  by_cases same : n = id
  · subst same
    by_cases inside : n < doc.size
    · rw [node_update_self inside, if_pos ⟨rfl, inside⟩]
    · have outside := Nat.le_of_not_lt inside
      rw [if_neg fun both => inside both.2, node_of_outside outside, node_of_outside]
      rwa [size_update]
  · rw [node_update_of_ne same, if_neg fun both => same both.1]

@[simp] theorem free_update (doc : Document ℓ) (id : NodeId) (f : Node ℓ → Node ℓ) :
    (doc.update id f).free = doc.free := rfl

/-- What an update leaves of a node it leaves. -/
theorem update_keeps {β : Type} (field : Node ℓ → β) {f : Node ℓ → Node ℓ}
    (kept : ∀ n, field (f n) = field n) (n : NodeId) :
    field ((doc.update id f).node n) = field (doc.node n) := by
  rw [node_update]
  split
  · rename_i both
    rw [kept, both.1]
  · rfl

theorem sameForest_update {f : Node ℓ → Node ℓ} (kind : ∀ n, (f n).kind = n.kind)
    (parent : ∀ n, (f n).parent = n.parent) (children : ∀ n, (f n).children = n.children)
    (released : ∀ n, (f n).released = n.released) : SameForest doc (doc.update id f) where
  size := size_update doc id f
  kind := update_keeps _ kind
  parent := update_keeps _ parent
  children := update_keeps _ children
  released := update_keeps _ released
  free _ waits _ := waits

end Document
end ReactiveView
