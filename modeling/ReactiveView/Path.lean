import ReactiveView.BindingError
import ReactiveView.Text.Blank

/-! Dotted paths. A path that is blank as a whole is refused; otherwise its segments are the trimmed
texts between the dots, of which each may be empty. -/
namespace ReactiveView.Path

def pieces (path : String) : List String :=
  (Text.pieces (· == '.') path.toList).map fun s => String.ofList (Text.trim s)

def isEmpty (path : String) : Bool :=
  path.toList.all Text.isBlank

def segments (path : String) : Except BindingError (List String) :=
  if isEmpty path then .error .emptyPath else .ok (pieces path)

theorem pieces_ne_nil (path : String) : pieces path ≠ [] := by
  simp [pieces, Text.pieces_ne_nil]

end ReactiveView.Path
