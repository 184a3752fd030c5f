import ReactiveView.Template.Directive
import ReactiveView.View.Event

/-! Bindings: what a directive or an interpolated text sets up between a view and a node. Each makes
its observers first and then shows the current data. -/
namespace ReactiveView.Binding

variable {κ : Type} (perform : Performer κ) (view : ViewId)

/-- The form value follows the data, and `input` events write it back. -/
def model (node : NodeRef) (path : String) : Run κ Unit := do
  let observer ← View.observe perform view path (.formValue node)
  Run.setValue node (← Run.observer observer).value.propertyText
  node.listen "input" (.writeBack view path)

def html (node : NodeRef) (path : String) : Run κ Unit := do
  let observer ← View.observe perform view path (.html node)
  Run.setHtml node (← Run.observer observer).value.propertyText

def text (node : NodeRef) (path : String) : Run κ Unit := do
  let observer ← View.observe perform view path (.text node)
  Run.setText node (← Run.observer observer).value.propertyText

/-- The method is looked up when the event comes, not before. -/
def bind (node : NodeRef) : Directive → Run κ Unit
  | .model path => model perform view node path
  | .html path => html perform view node path
  | .text path => text perform view node path
  | .on event method => node.listen event (.method view method)

/-- Every slot has an observer of its own, which renders the whole text. -/
def template (node : NodeRef) (pieces : List Piece) : Run κ Unit := do
  (Template.paths pieces).forM fun path =>
    discard <| View.observe perform view path (.template view node pieces)
  let text ← renderFrom perform (← Run.view view).store pieces
  Run.setText node text

/-- Binds the directives among the attributes, in their order. -/
def element (node : NodeRef) : Run κ Unit := do
  (← Run.node node).attributes.forM fun (name, value) =>
    match Directive.parse? name value with
    | some directive => bind perform view node directive
    | none => return

end ReactiveView.Binding
