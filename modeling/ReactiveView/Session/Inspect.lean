import ReactiveView.View.Mount
import ReactiveView.Value.Inspect

/-! Inspection texts of documents, nodes, events, observers and views. -/
namespace ReactiveView

def Kind.inspect : Kind → String
  | .element => "Element"
  | .text => "Text"
  | .comment => "Comment"
  | .fragment => "Fragment"

namespace Inspect

def nat (n : Nat) : String := toString n

def nodeId (id : NodeId) : String :=
  wrapped "NodeId" [nat id]

def document {ℓ : Type} (doc : Document ℓ) : String :=
  record "Document" [("nodes", nat doc.size)]

def node {ℓ : Type} (id : NodeId) (n : Node ℓ) : String :=
  record "NodeRef" [("id", nodeId id), ("kind", n.kind.inspect), ("tag", Text.quoted n.tag)]

def event (e : Event) : String :=
  record "Event" [("event_type", Text.quoted e.name), ("target", nodeId e.target.node)]

def computed (writable : Bool) : String :=
  record "Computed" [("writable", if writable then "true" else "false")]

def observer {κ : Type} (id : ObserverId) (o : Observer κ) : String :=
  record "Observer"
    [("id", wrapped "ObserverId" [nat id]), ("path", Text.quoted o.path),
      ("old_value", o.value.inspect)]

def names (items : List String) : String :=
  list (items.map Text.quoted)

def view {κ : Type} (v : View κ) : String :=
  record "Instance"
    [("el", option (v.mount.map fun ref => nodeId ref.node)),
      ("methods", names (v.methods.map (·.1))), ("observers", nat v.observers.length)]

def mountPoint {κ : Type} : MountPoint → Run κ String
  | .node ref => do return wrapped "Node" [node ref.node (← Run.node ref)]
  | .selector d selector => do
    return wrapped "Selector" [document (← Run.document d), Text.quoted selector]

def options {κ : Type} (o : ViewOptions κ) : Run κ String := do
  let mount ← match o.mount with
    | none => pure none
    | some point => some <$> mountPoint point
  return record "Options"
    [("el", option mount), ("data", o.data.inspect), ("methods", names (o.methods.map (·.1))),
      ("computed", names (o.computed.map (·.1)))]

end Inspect
end ReactiveView
