import ReactiveView.Document.Content
import ReactiveView.Program
import ReactiveView.Store.Access
import ReactiveView.Template.Interpolation

/-! The world of a running program: documents, stores, observers and views, the names given to
them, and what running code holds on to. Nothing is ever removed from it. Whether a view or an
observer is alive, and whether a node is held, follows from the names, the pins of running code and
the views that are alive. -/
namespace ReactiveView

structure Computed (κ : Type) where
  getter : Scope → Program κ Value
  setter : Option (Scope → Value → Program κ Unit) := none

/-- What an observer does with the new and the old value when the value has changed. -/
inductive Effect (κ : Type) where
  | formValue (target : NodeRef)
  | html (target : NodeRef)
  | text (target : NodeRef)
  /-- Renders the whole template from the data of a view, while the view is alive. -/
  | template (view : ViewId) (target : NodeRef) (pieces : List Piece)
  | code (run : Value → Value → Program κ Unit)
  /-- Runs code on a view, while the view is alive. -/
  | viewCode (view : ViewId) (run : Value → Value → Program κ Unit)

/-- What a node does when an event reaches it. Listeners of a dead view do nothing. -/
inductive Listener (κ : Type) where
  | writeBack (view : ViewId) (path : String)
  | method (view : ViewId) (name : String)
  | code (run : Event → Program κ Unit)

/-- A path with the value last seen there. -/
structure Observer (κ : Type) where
  path : String
  value : Value := .null
  effect : Effect κ

abbrev Method (κ : Type) := ViewId → Event → Program κ Unit

structure View (κ : Type) where
  store : StoreId
  methods : List (String × Method κ)
  mount : Option NodeRef
  /-- The observers the view keeps alive, in order of construction. -/
  observers : List ObserverId := []

/-- The names given to things, which keep what they name alive; weak names of views do not. -/
structure Names where
  documents : List (String × DocumentId) := []
  nodes : List (String × NodeRef) := []
  stores : List (String × StoreId) := []
  handles : List (String × Handle) := []
  observers : List (String × ObserverId) := []
  registries : List (String × Registry) := []
  views : List (String × ViewId) := []
  weakViews : List (String × ViewId) := []

/-- What running code refers to, and so keeps alive while it runs. -/
inductive Pin where
  | node (ref : NodeRef)
  | observer (id : ObserverId)
  | view (id : ViewId)
deriving DecidableEq

/-- One start of an effect. -/
structure Firing where
  observer : ObserverId
  new : Value
  old : Value

structure World (κ : Type) where
  documents : Array (Document (Listener κ)) := #[]
  stores : Array (Store (Computed κ)) := #[]
  observers : Array (Observer κ) := #[]
  views : Array (View κ) := #[]
  names : Names := {}
  pins : List Pin := []
  /-- What user code logged, latest first. -/
  log : List Value := []
  /-- The effects started so far, latest first. -/
  journal : List Firing := []

/-- The node that an effect of a binding writes to. -/
def Effect.target? {κ : Type} : Effect κ → Option NodeRef
  | .formValue target | .html target | .text target | .template _ target _ => some target
  | .code _ | .viewCode _ _ => none

namespace World

variable {κ : Type}

def viewAlive (w : World κ) (v : ViewId) : Bool :=
  w.names.views.any (·.2 == v) || w.pins.contains (.view v)

/-- The views that are alive, in order of construction. -/
def liveViews (w : World κ) : List (View κ) :=
  (w.views.toList.zipIdx.filter fun p => w.viewAlive p.2).map (·.1)

def observerAlive (w : World κ) (o : ObserverId) : Bool :=
  w.names.observers.any (·.2 == o) || w.pins.contains (.observer o) ||
    w.liveViews.any (·.observers.contains o)

/-- The nodes that living observers write to. -/
def liveTargets (w : World κ) : List NodeRef :=
  (w.observers.toList.zipIdx.filter fun p => w.observerAlive p.2).filterMap fun p =>
    p.1.effect.target?

/-- Whether something refers to a node, so that its slot must not be used again. -/
def held (w : World κ) (ref : NodeRef) : Bool :=
  w.names.nodes.any (·.2 == ref) || w.pins.contains (.node ref) ||
    w.liveViews.any (·.mount == some ref) || w.liveTargets.contains ref

end World
end ReactiveView
