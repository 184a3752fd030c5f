import ReactiveView.Document.Selector
import ReactiveView.View.Binding

/-! Mounting a view. The children of the mount target are moved into a fragment, walked there, and
moved back even if a binding fails. The walk is in document order, binds an element before it
descends into it, and visits the children that a level had when the walk came to it. -/
namespace ReactiveView

variable {κ : Type} (perform : Performer κ)

namespace View

/-- Visits nodes in order, holding those that are not done yet. -/
def visitAll (d : DocumentId) (visit : NodeId → Run κ Unit) : List NodeId → Run κ Unit
  | [] => return
  | id :: rest => do
    Run.pinning ((id :: rest).map fun id => .node ⟨d, id⟩) (visit id)
    visitAll d visit rest

/-- Binds everything below a node, through so many levels. -/
def bindBelow (v : ViewId) (d : DocumentId) : Nat → NodeId → Run κ Unit
  | 0, _ => Run.exhausted
  | levels + 1, parent => do
    let children := (← Run.node ⟨d, parent⟩).children
    visitAll d (fun id => do
      let node ← Run.node ⟨d, id⟩
      match node.kind with
      | .element =>
        Binding.element perform v ⟨d, id⟩
        bindBelow v d levels id
      | .text =>
        let pieces := Template.ofString node.data
        if Template.hasSlot pieces then Binding.template perform v ⟨d, id⟩ pieces
      | .comment | .fragment => return) children

/-- Binds the mount target of a view, if it has one; the target's own attributes are not bound. -/
def compile (levels : Nat) (v : ViewId) : Run κ Unit := do
  match (← Run.view v).mount with
  | none => return
  | some target =>
    let d := target.document
    let fragment ← Run.createNode d { kind := .fragment }
    Run.pinning [.node fragment] do
      let children := (← Run.node target).children
      Run.edit d fun _ doc => children.foldl (·.append fragment.node) doc
      let result ← Run.attempt (bindBelow perform v d levels fragment.node)
      Run.edit d fun _ doc => doc.append target.node fragment.node
      Run.ofExcept result

end View

/-- Where a view is to be mounted. -/
inductive MountPoint where
  | node (ref : NodeRef)
  | selector (document : DocumentId) (selector : String)
deriving DecidableEq

/-- What a view is made from. -/
structure ViewOptions (κ : Type) where
  mount : Option MountPoint := none
  data : Value := .null
  methods : List (String × Method κ) := []
  /-- Defined in this order over the data. -/
  computed : List (String × Computed κ) := []

namespace View

def findMount : MountPoint → Run κ (Option NodeRef)
  | .node ref => return some ref
  | .selector d selector => do
    return ((← Run.document d).query? Document.rootId selector).map (⟨d, ·⟩)

/-- Makes a view and binds its mount target. A view that cannot be bound is dropped. -/
def create (levels : Nat) (options : ViewOptions κ) : Run κ ViewId := do
  let cells := options.computed.foldl (fun s c => s.defineComputed c.1 c.2) (.ofValue options.data)
  let store ← Run.createStore cells
  let mount ← match options.mount with
    | none => pure none
    | some point => findMount point
  let v := (← Run.world).views.size
  Run.modify fun w =>
    { w with views := w.views.push { store, methods := options.methods, mount } }
  Run.pinning [.view v] (compile perform levels v)
  return v

end View

/-- Carries out one call. The calls of the code that it runs are left to `inner`, and commands to
`host`. -/
def Call.carryOut (host : κ → Run κ Unit) (inner : Performer κ) : Call κ → Run κ Value
  | .read (.scope s) path => s.resolve inner path
  | .read (.view v) path => View.get inner v path
  | .write (.scope s) path value => do s.assign inner path value; return .null
  | .write (.view v) path value => do View.set inner v path value; return .null
  | .formValue ref => return .string (← Run.node ref).value
  | .invoke view method event => do View.call inner view method event; return .null
  | .log value => do Run.modify fun w => { w with log := value :: w.log }; return .null
  | .host command => do host command; return .null

/-- Carries out the calls of user code, nested to so many levels; `host` carries out commands. -/
def performer (host : Nat → Performer κ → κ → Run κ Unit) : Nat → Performer κ
  | 0, _ => Run.exhausted
  | levels + 1, c => c.carryOut (host levels (performer host levels)) (performer host levels)

end ReactiveView
