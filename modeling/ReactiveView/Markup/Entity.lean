import ReactiveView.Text.Replace

/-! Character entities. Decoding replaces the five known entities one after the other, the ampersand
last; text and attribute values are escaped by the characters that would end them, the ampersand
first. -/
namespace ReactiveView.Entity

/-- The entities and what they stand for, in the order in which they are decoded. -/
def known : List (List Char × Char) :=
  [("&lt;".toList, '<'), ("&gt;".toList, '>'), ("&quot;".toList, '"'), ("&#39;".toList, '\''),
    ("&amp;".toList, '&')]

def decodeEach (entities : List (List Char × Char)) (s : List Char) : List Char :=
  entities.foldl (fun s entity => Text.replace entity.1 [entity.2] s) s

/-- Text without an ampersand is left as it is. -/
def decode (s : List Char) : List Char :=
  if s.contains '&' then decodeEach known s else s

def escapeText (s : List Char) : List Char :=
  Text.replace ['>'] "&gt;".toList
    (Text.replace ['<'] "&lt;".toList (Text.replace ['&'] "&amp;".toList s))

def escapeAttribute (s : List Char) : List Char :=
  Text.replace ['"'] "&quot;".toList (Text.replace ['&'] "&amp;".toList s)

end ReactiveView.Entity
