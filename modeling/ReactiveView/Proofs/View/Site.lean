import ReactiveView.Proofs.Document.Label
import ReactiveView.Proofs.View.Effects

/-! The document while a view is mounted. The children of the mount target hang in a fragment.
An element whose directives leave its children alone lets the walk pass to them as they were,
so the texts below such elements keep their places, and each of them keeps its template until
it is bound. -/
namespace ReactiveView

variable {κ : Type}

/-- No directive of the element replaces its children. -/
def Node.KeepsChildren {ℓ : Type} (n : Node ℓ) : Prop :=
  n.kind = .element ∧ ∀ a ∈ n.attributes, ∀ path,
    Directive.parse? a.1 a.2 ≠ some (.html path) ∧ Directive.parse? a.1 a.2 ≠ some (.text path)

theorem Node.keepsChildren_congr {ℓ : Type} {m n : Node ℓ} (kind : n.kind = m.kind)
    (attributes : n.attributes = m.attributes) : n.KeepsChildren ↔ m.KeepsChildren := by
  simp only [KeepsChildren, kind, attributes]

/-- The directives that an element carries. -/
def Node.directives {ℓ : Type} (n : Node ℓ) : List Directive :=
  n.attributes.filterMap fun a => Directive.parse? a.1 a.2

theorem Node.directives_congr {ℓ : Type} {m n : Node ℓ} (attributes : n.attributes = m.attributes) :
    n.directives = m.directives := by
  simp only [directives, attributes]

theorem Node.models_congr {ℓ : Type} {m n : Node ℓ} (attributes : n.attributes = m.attributes) :
    n.models = m.models := by
  simp only [models, attributes]

/-- Where a view is mounted: the view with its data and its methods, the mount target, the fragment
that holds the children meanwhile, and the document before the walk. -/
structure Site (κ : Type) where
  view : ViewId
  store : StoreId
  data : Store (Computed κ)
  methods : List (String × Method κ)
  document : DocumentId
  target : NodeId
  top : NodeId
  base : Document (Listener κ)

namespace Site

open Document

variable (site : Site κ)

def Exposed (n : NodeId) : Prop :=
  Reached Node.KeepsChildren site.base site.top n

/-- What a text is before the walk changes it. -/
def template (n : NodeId) : List Piece :=
  Template.ofString (site.base.node n).data

/-- The texts to be bound that no directive above them replaces. -/
def Text (n : NodeId) : Prop :=
  site.Exposed n ∧ (site.base.node n).kind = .text ∧ Template.hasSlot (site.template n) = true

/-- What may listen to `input`: what did so before, and what the walk adds, which writes back bound
paths or calls methods. -/
def Heeds (prior : Listener κ → Prop) (n : Node (Listener κ)) (listener : Listener κ) : Prop :=
  prior listener ∨ (∃ path ∈ n.models, listener = .writeBack site.view path) ∨
    ∃ name, listener = .method site.view name

/-- The document during the walk, when some nodes are bound already. -/
structure Holds (prior : Listener κ → Prop) (bound : NodeId → Prop) (doc : Document (Listener κ)) :
    Prop where
  formed : doc.WellFormed
  inside : site.top < doc.size
  topless : (doc.node site.top).parent = none
  fragment : (doc.node site.top).kind = .fragment
  target_inside : site.target < doc.size
  target_outside : site.target ≠ site.top ∧ ¬ Above doc site.top site.target
  target_emptied : (doc.node site.target).children = []
  exposed : ∀ n, site.Exposed n → (doc.node n).parent = (site.base.node n).parent ∧
    (doc.node n).kind = (site.base.node n).kind ∧
    (doc.node n).attributes = (site.base.node n).attributes
  waiting : ∀ n, site.Text n → ¬ bound n → (doc.node n).data = (site.base.node n).data
  shown : ∀ n, site.Text n → bound n → site.data.render (site.template n) = .ok (doc.node n).data
  listens : ∀ n, ∀ listener ∈ (doc.node n).listenersOf "input",
    site.Heeds prior (doc.node n) listener

namespace Holds

variable {site} {prior : Listener κ → Prop} {bound bound' : NodeId → Prop} {x : NodeId}
  {doc doc' : Document (Listener κ)}

theorem congr (holds : site.Holds prior bound doc)
    (same : ∀ n, site.Text n → (bound n ↔ bound' n)) : site.Holds prior bound' doc where
  formed := holds.formed
  inside := holds.inside
  topless := holds.topless
  fragment := holds.fragment
  target_inside := holds.target_inside
  target_outside := holds.target_outside
  target_emptied := holds.target_emptied
  exposed := holds.exposed
  waiting n text waits := holds.waiting n text fun isBound => waits ((same n text).mp isBound)
  shown n text isBound := holds.shown n text ((same n text).mpr isBound)
  listens := holds.listens

theorem ne_top (holds : site.Holds prior bound doc) (below : Above doc site.top x) :
    x ≠ site.top := by
  rintro rfl
  exact holds.formed.not_above_self _ below

theorem ne_target (holds : site.Holds prior bound doc) (below : Above doc site.top x) :
    x ≠ site.target := by
  rintro rfl
  exact holds.target_outside.2 below

theorem keepsChildren (holds : site.Holds prior bound doc) {n : NodeId} (exposed : site.Exposed n) :
    (doc.node n).KeepsChildren ↔ (site.base.node n).KeepsChildren :=
  Node.keepsChildren_congr (holds.exposed n exposed).2.1 (holds.exposed n exposed).2.2

/-- A node is written to, and keeps its kind, its attributes and its place. -/
theorem touch (holds : site.Holds prior bound doc) (forest : SameForest doc doc')
    (attributes : (doc'.node x).attributes = (doc.node x).attributes)
    (others : ∀ n, n ≠ x → doc'.node n = doc.node n)
    (listens : ∀ listener ∈ (doc'.node x).listenersOf "input",
      listener ∈ (doc.node x).listenersOf "input" ∨ site.Heeds prior (doc.node x) listener)
    (waiting : site.Text x → ¬ bound' x → (doc'.node x).data = (site.base.node x).data)
    (shown : site.Text x → bound' x → site.data.render (site.template x) = .ok (doc'.node x).data)
    (elsewhere : ∀ n, n ≠ x → (bound n ↔ bound' n)) : site.Holds prior bound' doc' where
  formed := holds.formed.sameForest forest
  inside := forest.size ▸ holds.inside
  topless := (forest.parent _).trans holds.topless
  fragment := (forest.kind _).trans holds.fragment
  target_inside := forest.size ▸ holds.target_inside
  target_outside := ⟨holds.target_outside.1, fun above => holds.target_outside.2
    (above.congr fun m _ => (forest.parent m).symm)⟩
  target_emptied := (forest.children _).trans holds.target_emptied
  exposed n exposed := by
    obtain ⟨parent, kind, same⟩ := holds.exposed n exposed
    refine ⟨(forest.parent n).trans parent, (forest.kind n).trans kind, ?_⟩
    by_cases here : n = x
    · rw [here, attributes, ← here, same]
    · rw [others n here, same]
  waiting n text waits := by
    by_cases here : n = x
    · subst here
      exact waiting text waits
    · rw [others n here]
      exact holds.waiting n text fun isBound => waits ((elsewhere n here).mp isBound)
  shown n text isBound := by
    by_cases here : n = x
    · subst here
      exact shown text isBound
    · rw [others n here]
      exact holds.shown n text ((elsewhere n here).mpr isBound)
  listens n listener listens' := by
    by_cases here : n = x
    · subst here
      have models := Node.models_congr attributes
      unfold Heeds
      rw [models]
      exact (listens listener listens').elim (holds.listens n listener) fun heeds => heeds
    · rw [others n here] at listens' ⊢
      exact holds.listens n listener listens'

/-- The nodes that no directive above them replaces, except for an element that a directive is about
to replace the children of, and the way up from them. -/
theorem closed (holds : site.Holds prior bound doc) (replaces : ¬ (doc.node x).KeepsChildren) :
    Closed site.top doc fun n => n = site.top ∨ site.Exposed n ∧ n ≠ x := by
  rintro n (same | ⟨exposed, -⟩)
  · exact .inl same
  · obtain ⟨p, parent, upper⟩ := exposed.parent
    refine .inr ⟨p, upper.imp_right fun ⟨exposed', keeps⟩ => ⟨exposed', ?_⟩,
      (holds.exposed n exposed).1.trans parent⟩
    rintro rfl
    exact replaces ((holds.keepsChildren exposed').mpr keeps)

/-- The children of an element that a directive replaces come and go. -/
theorem renewed {held : NodeId → Bool} {fresh : NodeId → Prop}
    (holds : site.Holds prior bound doc) (renews : Renews held (· = x) fresh doc doc')
    (formed : doc'.WellFormed) (topHeld : held site.top = true)
    (targetHeld : held site.target = true) (xHeld : held x = true) (inside : x < doc.size)
    (below : Above doc site.top x) (element : (doc.node x).kind = .element)
    (replaces : ¬ (doc.node x).KeepsChildren) : site.Holds prior bound doc' := by
  have spares := renews.spares topHeld holds.inside holds.topless
  have target := renews.old_of_held targetHeld holds.target_inside
  have stays : ∀ n, n = site.top ∨ site.Exposed n ∧ n ≠ x → (doc.node n).Stays (doc'.node n) := by
    refine spares _ (holds.closed replaces) ?_
    rintro m rfl (same | ⟨-, other⟩)
    · exact holds.ne_top below same
    · exact other rfl
  have top := stays site.top (.inl rfl)
  have notText : ∀ n, site.Text n → n ≠ x := by
    rintro n text rfl
    cases element.symm.trans ((holds.exposed n text.1).2.1.trans text.2.1)
  have data : ∀ n, site.Text n → (doc'.node n).data = (doc.node n).data := fun n text =>
    (stays n (.inr ⟨text.1, notText n text⟩)).data
  refine
    { formed := formed
      inside := Nat.lt_of_lt_of_le holds.inside renews.grown
      topless := top.parent.trans holds.topless
      fragment := top.kind.trans holds.fragment
      target_inside := Nat.lt_of_lt_of_le holds.target_inside renews.grown
      target_outside := ⟨holds.target_outside.1, fun above => holds.target_outside.2
        (renews.above_before target above)⟩
      target_emptied := (renews.children _ target (holds.ne_target below).symm).trans
        holds.target_emptied
      exposed := fun n exposed => ?_
      waiting := fun n text waits => (data n text).trans (holds.waiting n text waits)
      shown := fun n text isBound => data n text ▸ holds.shown n text isBound
      listens := fun n listener listens => ?_ }
  · obtain ⟨parent, kind, attributes⟩ := holds.exposed n exposed
    by_cases here : n = x
    · subst here
      obtain ⟨p, above⟩ := below.parent_eq_some
      have same := Node.shape_inj (renews.shape n (renews.old_of_held xHeld inside))
      have line := spares.line holds.topless holds.formed formed
        ((below.of_parent above).imp Eq.symm id) fun m same => same ▸ above
      exact ⟨(line.2.2 n above).trans (above.symm.trans parent), same.1.trans kind,
        same.2.1.trans attributes⟩
    · have same := stays n (.inr ⟨exposed, here⟩)
      exact ⟨same.parent.trans parent, same.kind.trans kind, same.attributes.trans attributes⟩
  · by_cases new : fresh n
    · rw [Node.listenersOf, renews.silent n new] at listens
      cases listens
    · obtain ⟨-, attributes, -, same⟩ := Node.shape_inj (renews.shape n new)
      simp only [Heeds, Node.models_congr attributes]
      rw [Node.listenersOf, same] at listens
      exact holds.listens n listener listens

end Holds
end Site
end ReactiveView
