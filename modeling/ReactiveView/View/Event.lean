import ReactiveView.Reaction

/-! Views as objects of use: their data, their methods, and the events that reach them. Events do
not bubble; only listeners of the target hear them. -/
namespace ReactiveView

variable {κ : Type} (perform : Performer κ)

namespace View

def get (v : ViewId) (path : String) : Run κ Value := do
  Scope.resolve perform { store := (← Run.view v).store } path

def set (v : ViewId) (path : String) (value : Value) : Run κ Unit := do
  Scope.assign perform { store := (← Run.view v).store } path value

def data (v : ViewId) : Run κ Value := do
  return (← Run.store (← Run.view v).store).snapshot

def call (v : ViewId) (method : String) (event : Event) : Run κ Unit := do
  match (← Run.view v).methods.lookup method with
  | none => Run.fail (.unknownMethod method)
  | some code => (code v event).run perform

/-- Makes an observer that lives as long as the view. -/
def observe (v : ViewId) (path : String) (effect : Effect κ) : Run κ ObserverId := do
  let id ← ReactiveView.observe perform (← Run.view v).store path effect
  Run.modify fun w =>
    { w with views := w.views.modify v fun view =>
        { view with observers := view.observers ++ [id] } }
  return id

end View

/-- Reacts to an event. A written-back value is the form value of the target at that moment. -/
def Listener.hear (event : Event) : Listener κ → Run κ Unit
  | .writeBack view path => Run.whileAlive view do
    View.set perform view path (.string (← Run.node event.target).value)
  | .method view name => Run.whileAlive view (View.call perform view name event)
  | .code run => (run event).run perform

namespace NodeRef

def listen (ref : NodeRef) (event : String) (listener : Listener κ) : Run κ Unit :=
  Run.updateNode ref fun n => { n with listeners := n.listeners ++ [(event, listener)] }

/-- Runs the listeners that the node has now, in order of registration. -/
def dispatch (ref : NodeRef) (event : String) : Run κ Unit := do
  let listeners := (← Run.node ref).listenersOf event
  Run.pinning [.node ref] (listeners.forM (Listener.hear perform ⟨event, ref⟩))

/-- Sets the form value as typing would, and tells the listeners of `input`. -/
def input (ref : NodeRef) (value : String) : Run κ Unit := do
  Run.setValue ref value
  ref.dispatch perform "input"

end NodeRef
end ReactiveView
