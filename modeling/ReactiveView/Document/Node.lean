/-! The nodes of a document. Each records in its mutation flags what was written to it since the
flags were last taken. -/
namespace ReactiveView

/-- A slot of a document. -/
abbrev NodeId := Nat

inductive Kind where
  | element
  | text
  | comment
  /-- A container outside the tree; appending it moves its children instead. -/
  | fragment
deriving DecidableEq

/-- The categories of state written to a node. -/
structure Mutations where
  value : Bool := false
  text : Bool := false
  innerHtml : Bool := false
  children : Bool := false
  attributes : Bool := false
deriving DecidableEq

/-- A node with listeners of type `ℓ`. The tag is in lower case, and is empty unless the node is an
element; `data` is the text of text nodes and comments, and `value` the form value. -/
structure Node (ℓ : Type) where
  kind : Kind
  tag : String := ""
  attributes : List (String × String) := []
  data : String := ""
  value : String := ""
  parent : Option NodeId := none
  children : List NodeId := []
  listeners : List (String × ℓ) := []
  mutations : Mutations := {}
  /-- The node is the root of a dropped subtree and waits on the free list. -/
  released : Bool := false

namespace Node

variable {ℓ : Type}

/-- Whether the text of the node is its own and not that of its children. -/
def isCharacterData (n : Node ℓ) : Bool :=
  n.kind = .text || n.kind = .comment

def attribute? (name : String) (n : Node ℓ) : Option String :=
  n.attributes.lookup name

def listenersOf (event : String) (n : Node ℓ) : List ℓ :=
  (n.listeners.filter (·.1 == event)).map (·.2)

end Node
end ReactiveView
