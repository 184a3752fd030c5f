import ReactiveView.Document.Branch
import ReactiveView.Text.Blank

/-! Selectors: an identifier, a class or a tag, of ASCII letters, digits, hyphens and underscores. A
query gives the first matching element below a node, in document order. -/
namespace ReactiveView

inductive Selector where
  | id (name : String)
  | cls (name : String)
  | tag (name : String)
deriving DecidableEq

namespace Selector

def isNameChar (c : Char) : Bool :=
  c.isAlphanum || c == '-' || c == '_'

def name? (s : List Char) : Option String :=
  if s ≠ [] && s.all isNameChar then some (String.ofList s) else none

def parse? (selector : String) : Option Selector :=
  match Text.trim selector.toList with
  | '#' :: s => (name? s).map .id
  | '.' :: s => (name? s).map .cls
  | s => (name? s).map fun name => .tag (Text.lower name)

variable {ℓ : Type}

def accepts (n : Node ℓ) : Selector → Bool
  | .id name => n.kind = .element && n.attribute? "id" == some name
  | .cls name =>
    n.kind = .element &&
      (Text.words ((n.attribute? "class").getD "").toList).contains name.toList
  | .tag name => n.kind = .element && n.tag == name

mutual

/-- The first accepted node of a branch, the node itself included. -/
def find? (s : Selector) : Branch ℓ → Option NodeId
  | .mk here node children => if s.accepts node then some here else s.findBelow? children

def findBelow? (s : Selector) : List (Branch ℓ) → Option NodeId
  | [] => none
  | b :: rest => (s.find? b).orElse fun _ => s.findBelow? rest

end
end Selector

/-- The first element below a node that a selector accepts. -/
def Document.query? {ℓ : Type} (doc : Document ℓ) (id : NodeId) (selector : String) :
    Option NodeId := do
  let s ← Selector.parse? selector
  s.findBelow? (doc.branch id).children

end ReactiveView
