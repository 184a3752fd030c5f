import ReactiveView.Markup.Entity

/-! Markup as a tree, and its written form. An element without content is written with its opening
tag alone when its tag is void, and an empty attribute value is written as the bare name. -/
namespace ReactiveView

inductive Markup where
  | element (tag : String) (attributes : List (String × String)) (children : List Markup)
  | text (data : String)
  | comment (data : String)
deriving Inhabited

namespace Markup

def isVoid (tag : String) : Bool :=
  ["area", "br", "col", "embed", "hr", "img", "input", "link", "meta", "source", "wbr"].contains tag

def writeAttribute (a : String × String) : List Char :=
  ' ' :: a.1.toList ++
    if a.2 = "" then [] else '=' :: '"' :: Entity.escapeAttribute a.2.toList ++ ['"']

def writeOpening (tag : String) (attributes : List (String × String)) : List Char :=
  '<' :: tag.toList ++ attributes.flatMap writeAttribute ++ ['>']

def writeClosing (tag : String) : List Char :=
  '<' :: '/' :: tag.toList ++ ['>']

mutual

def write : Markup → List Char
  | .element tag attributes children =>
    writeOpening tag attributes ++
      if isVoid tag then [] else writeAll children ++ writeClosing tag
  | .text data => Entity.escapeText data.toList
  | .comment data => "<!--".toList ++ data.toList ++ "-->".toList

def writeAll : List Markup → List Char
  | [] => []
  | m :: rest => write m ++ writeAll rest

end

mutual

/-- The text of elements and text, without comments. -/
def textContent : Markup → String
  | .element _ _ children => textContentAll children
  | .text data => data
  | .comment _ => ""

def textContentAll : List Markup → String
  | [] => ""
  | m :: rest => textContent m ++ textContentAll rest

end

end Markup
end ReactiveView
