import ReactiveView.Markup.Token
import ReactiveView.Text.Slice

/-! Reading markup at a position in bytes. The position is moved on by numbers of bytes, and the
text is cut at it again and again. A cut that falls inside a character or behind the end fails the
reading. A turn of a loop that stays where it is would come again and again, so that it has no
result either. -/
namespace ReactiveView

structure Cursor where
  source : String
  pos : String.Pos.Raw := 0

namespace Cursor

def atEnd (c : Cursor) : Bool :=
  c.source.utf8ByteSize ≤ c.pos.byteIdx

/-- How many bytes are left. -/
def left (c : Cursor) : Nat :=
  c.source.utf8ByteSize - c.pos.byteIdx

/-- The text behind the cursor. -/
def rest? (c : Cursor) : Option String :=
  Text.behind? c.source c.pos

def advance (bytes : Nat) (c : Cursor) : Cursor :=
  { c with pos := ⟨c.pos.byteIdx + bytes⟩ }

/-- Reads all characters of a kind up to the first other one. -/
def run? (p : Char → Bool) (c : Cursor) : Option (String × Cursor) := do
  let rest ← c.rest?
  let stop := Text.runEnd p rest
  return (← Text.upTo? rest ⟨stop⟩, c.advance stop)

/-- Reads up to a pattern and behind it, or else to the end. -/
def through? (pattern : String) (c : Cursor) : Option (String × Cursor) := do
  let rest ← c.rest?
  match Text.occurs? pattern rest with
  | some i => return (← Text.upTo? rest ⟨i⟩, c.advance (i + pattern.utf8ByteSize))
  | none => return (rest, { c with pos := c.source.rawEndPos })

def value? (c : Cursor) : Option (String × Cursor) := do
  match (← c.rest?).toList with
  | '"' :: _ => (c.advance 1).through? "\""
  | '\'' :: _ => (c.advance 1).through? "'"
  | _ => c.run? Token.isBareChar

/-- The value behind the name of an attribute, which is empty where no equals sign follows. -/
def assignment? (c : Cursor) : Option (String × Cursor) := do
  let (_, c) ← c.run? Text.isBlank
  match (← c.rest?).toList with
  | '=' :: _ =>
    let (_, c) ← (c.advance 1).run? Text.isBlank
    let (raw, c) ← c.value?
    return (String.ofList (Entity.decode raw.toList), c)
  | _ => return ("", c)

/-- What a turn of the loop over the attributes of a tag comes to: the end of the tag, or one more
attribute. A stray equals sign or slash is passed without one. -/
inductive TagTurn where
  | ended (selfClosing : Bool)
  | onward (found : Option (String × String))

/-- A turn in front of a text that does not start with a blank. -/
def visibleTurn? (c : Cursor) : List Char → Option (TagTurn × Cursor)
  | [] => some (.ended false, c)
  | '/' :: '>' :: _ => some (.ended true, c.advance 2)
  | '>' :: _ => some (.ended false, c.advance 1)
  | _ => do
    let (name, c) ← c.run? Token.isNameChar
    if name = "" then return (.onward none, c.advance 1)
    let (value, c) ← c.assignment?
    return (.onward (some (name, value)), c)

def tagTurn? (c : Cursor) : Option (TagTurn × Cursor) := do
  let (_, c) ← c.run? Text.isBlank
  c.visibleTurn? (← c.rest?).toList

def attributes? (c : Cursor) : Option (List (String × String) × Bool × Cursor) := do
  match ← c.tagTurn? with
  | (.ended selfClosing, c') => return ([], selfClosing, c')
  | (.onward found, c') =>
    if c'.left < c.left then
      let (more, ending) ← c'.attributes?
      return (found.toList ++ more, ending)
    else none
termination_by c.left

/-- The name of a tag, behind its bracket. -/
def tagName? (c : Cursor) : Option (String × Cursor) :=
  (c.advance 1).run? Token.isTagChar

/-- Whether a tag starts behind the beginning of a text. -/
def startsTagAt? (rest : String) (i : Nat) : Option Bool := do
  if i = 0 then return false
  return Token.startsTag (← Text.behind? rest ⟨i⟩).toList

/-- Where the text that begins here ends: at the next start of a tag, or else at the end. -/
def textEnd? (rest : String) : Option Nat := do
  let brackets := ((Text.positions 0 rest.toList).filter fun (_, c) => c = '<').map Prod.fst
  return (← brackets.findM? (startsTagAt? rest)).getD rest.utf8ByteSize

/-- What begins at a text. -/
inductive Beginning where
  | comment
  | declaration
  | closing
  | opening
  | text
deriving DecidableEq

def beginning : List Char → Beginning
  | '<' :: '!' :: '-' :: '-' :: _ => .comment
  | '<' :: '!' :: _ => .declaration
  | '<' :: '/' :: _ => .closing
  | s => if Token.startsTag s then .opening else .text

/-- A turn of the loop over the markup reads one token, or passes a declaration. -/
def turn? (c : Cursor) : Option (Option Token × Cursor) := do
  let rest ← c.rest?
  match beginning rest.toList with
  | .comment =>
    let (body, c) ← (c.advance 4).through? "-->"
    return (some (.comment body), c)
  | .declaration =>
    let (_, c) ← c.through? ">"
    return (none, c)
  | .closing =>
    let (name, c) ← (c.advance 2).through? ">"
    return (some (.closing (Text.lower (Text.trimmed name))), c)
  | .opening =>
    let (tag, c) ← c.tagName?
    let (attributes, selfClosing, c) ← c.attributes?
    return (some (.opening (Text.lower tag) attributes selfClosing), c)
  | .text =>
    let stop ← textEnd? rest
    let run ← Text.upTo? rest ⟨stop⟩
    return (some (.text (String.ofList (Entity.decode run.toList))), c.advance stop)

/-- Reads tokens until the end is reached, and gives the cursor then. -/
def read? (c : Cursor) : Option (List Token × Cursor) := do
  if c.atEnd then return ([], c)
  let (token, c') ← c.turn?
  if c'.left < c.left then
    let (later, c'') ← c'.read?
    return (token.toList ++ later, c'')
  else none
termination_by c.left

end Cursor
end ReactiveView
