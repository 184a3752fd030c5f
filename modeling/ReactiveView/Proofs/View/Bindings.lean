import ReactiveView.Proofs.Document.Renewal
import ReactiveView.Proofs.Reaction.Pass
import ReactiveView.Proofs.View.Holding
import ReactiveView.Proofs.View.Rendering

/-! What a bound view keeps up. Its observers write to the nodes that they were made for. A bound
text shows its template and a bound element its path, unless an observer that shows it has still to
be updated in the pass that is under way. -/
namespace ReactiveView

variable {κ : Type}

/-- The path of an attribute that is a `v-model` directive. -/
def Directive.modelPath? (a : String × String) : Option String :=
  match Directive.parse? a.1 a.2 with
  | some (.model path) => some path
  | _ => none

/-- The paths that `v-model` directives bind an element to. -/
def Node.models {ℓ : Type} (n : Node ℓ) : List String :=
  n.attributes.filterMap Directive.modelPath?

/-- What a node keeps while it is held: all but what is written to it, and its parent or none. -/
structure Node.Retains {ℓ : Type} (m n : Node ℓ) : Prop where
  kind : n.kind = m.kind
  attributes : n.attributes = m.attributes
  listeners : n.listeners = m.listeners
  parent : ∀ p, n.parent = some p → m.parent = some p

theorem Node.Retains.refl {ℓ : Type} (n : Node ℓ) : n.Retains n :=
  ⟨rfl, rfl, rfl, fun _ parent => parent⟩

theorem Node.Retains.trans {ℓ : Type} {l m n : Node ℓ} (first : l.Retains m)
    (second : m.Retains n) :
    l.Retains n :=
  ⟨second.kind.trans first.kind, second.attributes.trans first.attributes,
    second.listeners.trans first.listeners, fun p parent => first.parent p (second.parent p parent)⟩

/-- Nothing but the pins and the records of what went on has changed. -/
structure World.Still (w w' : World κ) : Prop where
  documents : w'.documents = w.documents
  stores : w'.stores = w.stores
  observers : w'.observers = w.observers
  views : w'.views = w.views
  names : w'.names = w.names

theorem World.still_pins (w : World κ) (pins : List Pin) : w.Still { w with pins := pins } :=
  ⟨rfl, rfl, rfl, rfl, rfl⟩

/-- A listener that only looks at the world. -/
def Listener.Quiet (perform : Performer κ) (listener : Listener κ) : Prop :=
  ∀ event, Run.Keeps World.Still (listener.hear perform event)

/-- What is shown of an observer's value is what is shown of the value that its path has now. -/
def Observer.Shown (observer : Observer κ) (s : Store (Computed κ)) : Prop :=
  ∃ v, s.read observer.path = .ok v ∧ Value.Alike observer.value v

/-- What a view has set up in a document: what each of its observers is for, the nodes as they were
then, the templates of the bound texts, and the elements with `v-model`. -/
structure Bindings (κ : Type) where
  view : ViewId
  document : DocumentId
  made : View κ
  path : ObserverId → String
  effect : ObserverId → Effect κ
  node : NodeId → Node (Listener κ)
  texts : NodeId → List Piece → Prop
  fields : NodeId → Prop

namespace Bindings

variable (b : Bindings κ)

def Targets (n : NodeId) : Prop :=
  ∃ o ∈ b.made.observers, (b.effect o).target? = some ⟨b.document, n⟩

/-- The observer writes the text or the form value of the node. -/
def Shows (o : ObserverId) (n : NodeId) : Prop :=
  (b.effect o = .formValue ⟨b.document, n⟩) ∨
    ∃ template, b.effect o = .template b.view ⟨b.document, n⟩ template

/-- An effect that a directive or an interpolated text sets up. No text is bound below an element
that another directive writes to. -/
inductive Ties (path : String) : Effect κ → Prop
  | formValue (n : NodeId) : (b.node n).kind = .element → path ∈ (b.node n).models →
      Ties path (.formValue ⟨b.document, n⟩)
  | html (n : NodeId) : (∀ m t, b.texts m t → (b.node m).parent ≠ some n) →
      Ties path (.html ⟨b.document, n⟩)
  | text (n : NodeId) : (b.node n).kind = .element →
      (∀ m t, b.texts m t → (b.node m).parent ≠ some n) → Ties path (.text ⟨b.document, n⟩)
  | template (n : NodeId) (template : List Piece) : (b.node n).kind = .text →
      (∀ t, b.texts n t → t = template) →
      Ties path (.template b.view ⟨b.document, n⟩ template)

/-- Every slot of a bound text and every path of a bound element has an observer. Events reach the
data through the paths of the element only. -/
structure Sane (perform : Performer κ) : Prop where
  ties : ∀ o ∈ b.made.observers, b.Ties (b.path o) (b.effect o)
  isText : ∀ n t, b.texts n t → (b.node n).kind = .text ∧ Template.paths t ≠ []
  slots : ∀ n t, b.texts n t → ∀ path ∈ Template.paths t, ∃ o ∈ b.made.observers,
    b.path o = path ∧ b.effect o = .template b.view ⟨b.document, n⟩ t
  models : ∀ n, b.fields n → ∀ path ∈ (b.node n).models, ∃ o ∈ b.made.observers,
    b.path o = path ∧ b.effect o = .formValue ⟨b.document, n⟩
  isField : ∀ n, b.fields n → (b.node n).kind = .element ∧ (b.node n).models ≠ []
  writesBack : ∀ n, b.fields n → ∀ path ∈ (b.node n).models,
    .writeBack b.view path ∈ (b.node n).listenersOf "input"
  hears : ∀ n, b.fields n → ∀ listener ∈ (b.node n).listenersOf "input",
    listener.Quiet perform ∨ (∃ path ∈ (b.node n).models, listener = .writeBack b.view path) ∨
      ∃ name, listener = .method b.view name
  methods : b.made.methods = []

/-- An observer of the view, registered wherever its path passes. -/
structure Observes (w : World κ) (s : Store (Computed κ)) (o : ObserverId) (observer : Observer κ) :
    Prop where
  found : w.observers[o]? = some observer
  path : observer.path = b.path o
  effect : observer.effect = b.effect o
  legible : observer.value.Legible
  registered : ∀ c ∈ s.cellsAt (b.path o), o ∈ (s.registry c).entries

/-- An observer that shows the node and is pending does not show the current value of its path. -/
def Lags (pending : ObserverId → Prop) (w : World κ) (s : Store (Computed κ)) (n : NodeId) : Prop :=
  ∃ o ∈ b.made.observers, pending o ∧ b.Shows o n ∧
    ∀ observer, w.observers[o]? = some observer → ¬ observer.Shown s

/-- The view lives on its data and its document, and everything but the exempt nodes is as the data
says, as far as no observer is pending. -/
structure Upheld (exempt : NodeId → Prop) (pending : ObserverId → Prop) (w : World κ)
    (s : Store (Computed κ)) (doc : Document (Listener κ)) : Prop where
  view : w.views[b.view]? = some b.made
  named : w.names.views.any (·.2 == b.view) = true
  here : w.stores[b.made.store]? = some s
  plain : s.Plain
  sound : s.Sound
  exact : s.Exact
  subscribed : ∀ (c : CellId) (o : ObserverId), o ∈ (s.registry c).entries → o ∈ b.made.observers
  observers : ∀ o ∈ b.made.observers, ∃ observer, b.Observes w s o observer ∧
    (pending o ∨ observer.Shown s)
  there : w.documents[b.document]? = some doc
  formed : doc.WellFormed
  inside : ∀ n, b.Targets n → n < doc.size
  nodes : ∀ n, b.Targets n → (b.node n).Retains (doc.node n)
  texts : ∀ n t, b.texts n t → exempt n ∨ b.Lags pending w s n ∨
    s.render t = .ok (doc.node n).data
  fields : ∀ n path, b.fields n → (b.node n).models = [path] → exempt n ∨ b.Lags pending w s n ∨
    ∃ v, s.read path = .ok v ∧ (doc.node n).value = v.propertyText

variable {b} {perform : Performer κ} {exempt exempt' : NodeId → Prop} {pending : ObserverId → Prop}
  {w w' : World κ} {s : Store (Computed κ)} {doc doc' : Document (Listener κ)}

theorem Sane.targets_text (sane : b.Sane perform) {n : NodeId} {t : List Piece}
    (bound : b.texts n t) :
    b.Targets n := by
  obtain ⟨path, rest, some⟩ := List.exists_cons_of_ne_nil (sane.isText n t bound).2
  obtain ⟨o, member, -, effect⟩ := sane.slots n t bound path (by simp [some])
  exact ⟨o, member, by rw [effect]; rfl⟩

theorem Sane.targets_field (sane : b.Sane perform) {n : NodeId} (bound : b.fields n) :
    b.Targets n := by
  obtain ⟨path, rest, some⟩ := List.exists_cons_of_ne_nil (sane.isField n bound).2
  obtain ⟨o, member, -, effect⟩ := sane.models n bound path (by simp [some])
  exact ⟨o, member, by rw [effect]; rfl⟩

namespace Upheld

theorem alive (upheld : b.Upheld exempt pending w s doc) : w.viewAlive b.view = true := by
  simp only [World.viewAlive, upheld.named, Bool.true_or]

theorem held (upheld : b.Upheld exempt pending w s doc) {n : NodeId} (target : b.Targets n) :
    w.held ⟨b.document, n⟩ = true := by
  obtain ⟨o, member, target⟩ := target
  obtain ⟨observer, observes, -⟩ := upheld.observers o member
  exact World.held_target upheld.view upheld.alive member observes.found (observes.effect ▸ target)

/-- No slot of a node that the view writes to is taken. -/
theorem guarded (upheld : b.Upheld exempt pending w s doc) (opened : NodeId → Prop) :
    Document.Guarded (fun n => w.held ⟨b.document, n⟩) opened doc b.Targets :=
  ⟨upheld.inside, fun _ target => .inl (upheld.held target)⟩

theorem still (upheld : b.Upheld exempt pending w s doc) (still : w.Still w') :
    b.Upheld exempt pending w' s doc where
  view := still.views ▸ upheld.view
  named := still.names ▸ upheld.named
  here := still.stores ▸ upheld.here
  plain := upheld.plain
  sound := upheld.sound
  exact := upheld.exact
  subscribed := upheld.subscribed
  observers o member := by
    obtain ⟨observer, observes, current⟩ := upheld.observers o member
    exact ⟨observer, ⟨still.observers ▸ observes.found, observes.path, observes.effect,
      observes.legible, observes.registered⟩, current⟩
  there := still.documents ▸ upheld.there
  formed := upheld.formed
  inside := upheld.inside
  nodes := upheld.nodes
  texts n t bound := by
    unfold Lags
    rw [still.observers]
    exact upheld.texts n t bound
  fields n path bound only := by
    unfold Lags
    rw [still.observers]
    exact upheld.fields n path bound only

theorem repin (upheld : b.Upheld exempt pending w s doc) (pins : List Pin) :
    b.Upheld exempt pending { w with pins := pins } s doc :=
  upheld.still (w.still_pins pins)

/-- A change of the document that keeps the nodes that the view writes to. -/
theorem edit (upheld : b.Upheld exempt pending w s doc)
    {f : (NodeId → Bool) → Document (Listener κ) → Document (Listener κ)}
    (same : f (fun n => w.held ⟨b.document, n⟩) doc = doc') (formed : doc'.WellFormed)
    (grown : doc.size ≤ doc'.size) (nodes : ∀ n, b.Targets n → (doc.node n).Retains (doc'.node n))
    (texts : ∀ n t, b.texts n t → exempt' n ∨ s.render t = .ok (doc'.node n).data ∨
      ¬ exempt n ∧ (doc'.node n).data = (doc.node n).data)
    (fields : ∀ n path, b.fields n → (b.node n).models = [path] → exempt' n ∨
      (∃ v, s.read path = .ok v ∧ (doc'.node n).value = v.propertyText) ∨
      ¬ exempt n ∧ (doc'.node n).value = (doc.node n).value) :
    b.Upheld exempt' pending { w with
      documents := w.documents.modify b.document (f fun n => w.held ⟨b.document, n⟩) } s doc' where
  view := upheld.view
  named := upheld.named
  here := upheld.here
  plain := upheld.plain
  sound := upheld.sound
  exact := upheld.exact
  subscribed := upheld.subscribed
  observers o member := by
    obtain ⟨observer, observes, current⟩ := upheld.observers o member
    exact ⟨observer, ⟨observes.found, observes.path, observes.effect, observes.legible,
      observes.registered⟩, current⟩
  there := by
    rw [Array.getElem?_modify, if_pos rfl, upheld.there, Option.map_some, same]
  formed := formed
  inside n target := Nat.lt_of_lt_of_le (upheld.inside n target) grown
  nodes n target := (upheld.nodes n target).trans (nodes n target)
  texts n t bound := by
    obtain free | shown | ⟨notExempt, kept⟩ := texts n t bound
    · exact .inl free
    · exact .inr (.inr shown)
    · rw [kept]
      exact .inr ((upheld.texts n t bound).resolve_left notExempt)
  fields n path bound only := by
    obtain free | shown | ⟨notExempt, kept⟩ := fields n path bound only
    · exact .inl free
    · exact .inr (.inr shown)
    · rw [kept]
      exact .inr ((upheld.fields n path bound only).resolve_left notExempt)

end Upheld
end Bindings
end ReactiveView
