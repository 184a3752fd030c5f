import ReactiveView.Document.Branch
import ReactiveView.Entries
import ReactiveView.Markup.Parse

/-! Writing to nodes: attributes, form values, text and markup. A write that leaves a node as it was
records nothing. -/
namespace ReactiveView.Document

variable {ℓ : Type}

/-- The attribute `value` also sets the form value. -/
def setAttribute (doc : Document ℓ) (id : NodeId) (name value : String) : Document ℓ :=
  if (doc.node id).attribute? name = some value then doc
  else doc.update id fun n =>
    { n with
      attributes := Entries.set name value n.attributes
      value := if name = "value" then value else n.value
      mutations := { n.mutations with attributes := true } }

def setValue (doc : Document ℓ) (id : NodeId) (value : String) : Document ℓ :=
  if (doc.node id).value = value then doc
  else doc.update id fun n =>
    { n with value := value, mutations := { n.mutations with value := true } }

def setData (doc : Document ℓ) (id : NodeId) (data : String) : Document ℓ :=
  if (doc.node id).data = data then doc
  else doc.update id fun n =>
    { n with data := data, mutations := { n.mutations with text := true } }

def flagText (n : Node ℓ) : Node ℓ :=
  { n with mutations := { n.mutations with text := true } }

/-- The child of a node that has one child, if that is a text node. -/
def onlyText? (doc : Document ℓ) (id : NodeId) : Option NodeId :=
  match (doc.node id).children with
  | [only] => if (doc.node only).kind = .text then some only else none
  | _ => none

/-- Puts a new node at the end of a child list. -/
def adopt (held : NodeId → Bool) (doc : Document ℓ) (parent : NodeId) (n : Node ℓ) :
    NodeId × Document ℓ :=
  let (id, doc) := doc.alloc held n
  (id, doc.append parent id)

/-- Replaces all children by one text node, or by none for the empty text. -/
def replaceByText (held : NodeId → Bool) (doc : Document ℓ) (id : NodeId) (text : String) :
    Document ℓ :=
  let doc := doc.clearChildren id
  let doc := if text = "" then doc else (doc.adopt held id { kind := .text, data := text }).2
  doc.update id flagText

/-- Character data takes the text itself. Any other node is left with one text node, which is an
only text child rewritten in place, or with no child for the empty text. -/
def setTextContent (held : NodeId → Bool) (doc : Document ℓ) (id : NodeId) (text : String) :
    Document ℓ :=
  if (doc.node id).isCharacterData then doc.setData id text
  else if text = "" then
    if (doc.node id).children = [] then doc else doc.replaceByText held id text
  else
    match doc.onlyText? id with
    | some child =>
      if (doc.node child).data = text then doc else (doc.setData child text).update id flagText
    | none => doc.replaceByText held id text

/-- The node an element of markup becomes, before it has children. -/
def elementNode (tag : String) (attributes : List (String × String)) : Node ℓ :=
  { kind := .element
    tag
    attributes
    value := (attributes.lookup "value").getD ""
    mutations := { attributes := !attributes.isEmpty } }

mutual

/-- Adds markup at the end of a child list, each node before the nodes below it. -/
def graft (held : NodeId → Bool) (parent : NodeId) : Markup → Document ℓ → Document ℓ
  | .element tag attributes children, doc =>
    let (id, doc) := doc.adopt held parent (elementNode tag attributes)
    graftAll held id children doc
  | .text data, doc => (doc.adopt held parent { kind := .text, data }).2
  | .comment data, doc => (doc.adopt held parent { kind := .comment, data }).2

def graftAll (held : NodeId → Bool) (parent : NodeId) : List Markup → Document ℓ → Document ℓ
  | [], doc => doc
  | m :: rest, doc => graftAll held parent rest (graft held parent m doc)

end

/-- Replaces the children by parsed markup, unless the markup is what they are written as. -/
def setInnerHtml (held : NodeId → Bool) (doc : Document ℓ) (id : NodeId) (markup : String) :
    Document ℓ :=
  if (doc.node id).isCharacterData || doc.innerHtml id = markup then doc
  else
    (graftAll held id (Markup.parse markup) (doc.clearChildren id)).update id fun n =>
      { n with mutations := { n.mutations with innerHtml := true } }

/-- A document whose root holds the parsed markup. -/
def ofMarkup (markup : String) : Document ℓ :=
  (graftAll (fun _ => false) rootId (Markup.parse markup) empty).clearMutations

end ReactiveView.Document
