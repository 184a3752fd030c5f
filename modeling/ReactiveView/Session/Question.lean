import ReactiveView.Document.Content
import ReactiveView.Path
import ReactiveView.Session.Command
import ReactiveView.Template.Directive
import ReactiveView.Template.Interpolation

/-! Answers to questions that need no world, and the listing of a branch with all that its nodes
show. Answers are data values. -/
namespace ReactiveView

def Kind.name : Kind → String
  | .element => "element"
  | .text => "text"
  | .comment => "comment"
  | .fragment => "fragment"

/-- The flags that are set. -/
def Mutations.listing (m : Mutations) : Value :=
  .strings <|
    (if m.value then ["VALUE"] else []) ++ (if m.text then ["TEXT"] else []) ++
      (if m.innerHtml then ["INNER_HTML"] else []) ++ (if m.children then ["CHILDREN"] else []) ++
      (if m.attributes then ["ATTRIBUTES"] else [])

def attributeListing (attributes : List (String × String)) : Value :=
  .array (attributes.map fun a => .strings [a.1, a.2])

namespace Branch

variable {ℓ : Type}

mutual

/-- Children of character data are listed only if there are any. -/
def listing : Branch ℓ → Value
  | mk _ node children =>
    let below := listingAll children
    let specific := match node.kind with
      | .element =>
        [("tag", .string node.tag), ("attrs", attributeListing node.attributes),
          ("value", .string node.value), ("children", .array below)]
      | .text | .comment =>
        ("data", .string node.data) :: if below.isEmpty then [] else [("children", .array below)]
      | .fragment => [("children", .array below)]
    .ofPairs (("kind", .string node.kind.name) :: ("mutations", node.mutations.listing) :: specific)

def listingAll : List (Branch ℓ) → List Value
  | [] => []
  | b :: rest => listing b :: listingAll rest

end
end Branch

namespace Session.Question

def directiveListing : Option Directive → Value
  | none => .null
  | some (.model path) => .ofPairs [("kind", .string "model"), ("path", .string path)]
  | some (.html path) => .ofPairs [("kind", .string "html"), ("path", .string path)]
  | some (.text path) => .ofPairs [("kind", .string "text"), ("path", .string path)]
  | some (.on event method) =>
    .ofPairs [("kind", .string "on"), ("event", .string event), ("method", .string method)]

def lookupIn (values : List (String × Value)) (path : String) : Except BindingError Value :=
  match values.lookup path with
  | some v => .ok v
  | none => .error (.handler "lookup" path)

def answer : Question → Except BindingError Value
  | .display v => return .string v.display
  | .strictEq a b => return .bool (a.strictEq b)
  | .segments path => do return .strings (← Path.segments path)
  | .directive name value => return directiveListing (Directive.parse? name value)
  | .interpolation text =>
    let template := Template.ofString text
    return .ofPairs
      [("has", .bool (Template.hasSlot template)), ("paths", .strings (Template.paths template))]
  | .render text values => do
    return .string (← Template.render (lookupIn values) (Template.ofString text))
  | .parse markup =>
    let doc : Document Unit := .ofMarkup markup
    return .ofPairs
      [("html", .string (doc.innerHtml Document.rootId)),
        ("text", .string (doc.textContent Document.rootId)),
        ("tree", (doc.branch Document.rootId).listing)]
  | .parseHtml markup =>
    let doc : Document Unit := .ofMarkup markup
    return .string (doc.innerHtml Document.rootId)

end Session.Question
end ReactiveView
