/-! Text cut at positions in bytes. A text is as long as its encoding, in which a character takes up
to four bytes, and it can be cut only where a character begins or at its end. -/
namespace ReactiveView.Text

/-- The text behind a position. -/
def behind? (s : String) (p : String.Pos.Raw) : Option String :=
  if valid : p.IsValid s then some (s.sliceFrom ⟨p, valid⟩).copy else none

/-- The text up to a position. -/
def upTo? (s : String) (p : String.Pos.Raw) : Option String :=
  if valid : p.IsValid s then some (s.sliceTo ⟨p, valid⟩).copy else none

/-- Characters with the positions at which they begin, counted on from a position. -/
def positions : Nat → List Char → List (Nat × Char)
  | _, [] => []
  | i, c :: s => (i, c) :: positions (i + c.utf8Size) s

/-- Where the first character that is not of a kind begins, or else the end. -/
def runEnd (p : Char → Bool) (s : String) : Nat :=
  match (positions 0 s.toList).find? fun (_, c) => !p c with
  | some (i, _) => i
  | none => s.utf8ByteSize

/-- Where a pattern that is not empty occurs first, counted on from a position. -/
def occursFrom? (pattern : List Char) : Nat → List Char → Option Nat
  | _, [] => none
  | i, c :: s =>
    if pattern.isPrefixOf (c :: s) then some i else occursFrom? pattern (i + c.utf8Size) s

def occurs? (pattern s : String) : Option Nat :=
  occursFrom? pattern.toList 0 s.toList

end ReactiveView.Text
