import ReactiveView.Document.Basic
import ReactiveView.Markup.Basic

/-! A node together with everything below it, read off a document as a tree. Text, markup and
listings of a subtree are functions of its branch. -/
namespace ReactiveView

inductive Branch (ℓ : Type) where
  | mk (id : NodeId) (node : Node ℓ) (children : List (Branch ℓ))

namespace Branch

variable {ℓ : Type}

def id : Branch ℓ → NodeId
  | mk id _ _ => id

def node : Branch ℓ → Node ℓ
  | mk _ node _ => node

def children : Branch ℓ → List (Branch ℓ)
  | mk _ _ children => children

mutual

/-- The node itself, then all nodes below it, in document order. -/
def preorder : Branch ℓ → List (NodeId × Node ℓ)
  | mk id node children => (id, node) :: preorderAll children

def preorderAll : List (Branch ℓ) → List (NodeId × Node ℓ)
  | [] => []
  | b :: rest => preorder b ++ preorderAll rest

end

mutual

/-- The markup of a branch; a fragment is the markup of its children. -/
def markup : Branch ℓ → List Markup
  | mk _ node children =>
    match node.kind with
    | .element => [.element node.tag node.attributes (markupAll children)]
    | .text => [.text node.data]
    | .comment => [.comment node.data]
    | .fragment => markupAll children

def markupAll : List (Branch ℓ) → List Markup
  | [] => []
  | b :: rest => markup b ++ markupAll rest

end
end Branch

namespace Document

variable {ℓ : Type}

/-- The branch at a node, cut off after so many levels. -/
def branchTo (doc : Document ℓ) : Nat → NodeId → Branch ℓ
  | 0, id => .mk id (doc.node id) []
  | levels + 1, id => .mk id (doc.node id) ((doc.node id).children.map (doc.branchTo levels))

/-- No branch of a tree has more levels than the document has nodes. -/
def branch (doc : Document ℓ) (id : NodeId) : Branch ℓ :=
  doc.branchTo doc.size id

def innerMarkup (doc : Document ℓ) (id : NodeId) : List Markup :=
  Branch.markupAll (doc.branch id).children

def outerMarkup (doc : Document ℓ) (id : NodeId) : List Markup :=
  (doc.branch id).markup

def innerHtml (doc : Document ℓ) (id : NodeId) : String :=
  String.ofList (Markup.writeAll (doc.innerMarkup id))

def outerHtml (doc : Document ℓ) (id : NodeId) : String :=
  String.ofList (Markup.writeAll (doc.outerMarkup id))

/-- The text of character data itself, and else of the nodes below without comments. -/
def textContent (doc : Document ℓ) (id : NodeId) : String :=
  if (doc.node id).isCharacterData then (doc.node id).data
  else Markup.textContentAll (doc.innerMarkup id)

end Document
end ReactiveView
