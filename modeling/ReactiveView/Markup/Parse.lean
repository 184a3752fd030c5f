import ReactiveView.Entries
import ReactiveView.Markup.Token

/-! Markup read from its tokens. A closing tag closes the innermost open element of its name
together with everything inside it, and is dropped if there is none; the end closes all. -/
namespace ReactiveView.Markup

/-- An open element, with the siblings before it, latest first. -/
structure OpenElement where
  tag : String
  attributes : List (String × String)
  before : List Markup

/-- The open elements, innermost first, and the latest content, latest first. -/
structure Building where
  stack : List OpenElement := []
  content : List Markup := []

namespace Building

def closeInnermost (b : Building) : Building :=
  match b.stack with
  | [] => b
  | top :: stack =>
    ⟨stack, .element top.tag top.attributes b.content.reverse :: top.before⟩

/-- Closes open elements up to and including the innermost one of the given tag. -/
def closeThrough (tag : String) : List OpenElement → Building → Building
  | [], b => b
  | top :: rest, b =>
    if top.tag = tag then b.closeInnermost else closeThrough tag rest b.closeInnermost

def closeTag (tag : String) (b : Building) : Building :=
  if b.stack.any (·.tag == tag) then closeThrough tag b.stack b else b

def closeAll : List OpenElement → Building → Building
  | [], b => b
  | _ :: rest, b => closeAll rest b.closeInnermost

def finish (b : Building) : List Markup :=
  (closeAll b.stack b).content.reverse

def add (m : Markup) (b : Building) : Building :=
  { b with content := m :: b.content }

def step (b : Building) : Token → Building
  | .opening tag attributes selfClosing =>
    if selfClosing || isVoid tag then b.add (.element tag (Entries.merge attributes) [])
    else ⟨⟨tag, Entries.merge attributes, b.content⟩ :: b.stack, []⟩
  | .closing tag => b.closeTag tag
  | .comment data => b.add (.comment data)
  | .text data => b.add (.text data)

end Building

def ofTokens (tokens : List Token) : List Markup :=
  (tokens.foldl Building.step {}).finish

def parse (markup : String) : List Markup :=
  ofTokens (Token.scan markup.toList)

end ReactiveView.Markup
