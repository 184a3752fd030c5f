import ReactiveView.Text.Blank
import ReactiveView.Value.Location

/-! Pointers: places inside a value, written as text. The empty pointer is the whole value, and
every step stands behind a slash. Within a step a tilde is written `~0` and a slash `~1`. -/
namespace ReactiveView

namespace Pointer

def escape (step : String) : String :=
  String.ofList <| step.toList.flatMap fun c =>
    if c = '~' then ['~', '0'] else if c = '/' then ['~', '1'] else [c]

/-- Replaces each tilde before `mark`, together with the mark. -/
def unmark (mark c : Char) : List Char → List Char
  | [] => []
  | '~' :: x :: rest =>
    if x = mark then c :: unmark mark c rest else '~' :: unmark mark c (x :: rest)
  | x :: rest => x :: unmark mark c rest

/-- Slashes come first, so that a tilde made here is not read as the start of another mark. -/
def unescape (step : List Char) : String :=
  String.ofList (unmark '0' '~' (unmark '1' '/' step))

/-- The steps of a pointer. A text that is not empty and starts without a slash is none. -/
def steps? (pointer : String) : Option (List String) :=
  match pointer.toList with
  | [] => some []
  | '/' :: rest => some ((Text.pieces (· == '/') rest).map unescape)
  | _ => none

def child (pointer key : String) : String :=
  pointer ++ "/" ++ escape key

theorem unmark_cons {mark c x : Char} (plain : x ≠ '~') (rest : List Char) :
    unmark mark c (x :: rest) = x :: unmark mark c rest := by
  rw [unmark]
  rintro - - rfl
  exact (plain rfl).elim

/-- Once the slashes are back, only the tildes are still marked. -/
theorem unmark_escape (s : List Char) :
    unmark '1' '/' (escape (String.ofList s)).toList =
      s.flatMap fun c => if c = '~' then ['~', '0'] else [c] := by
  simp only [escape, String.toList_ofList]
  induction s with
  | nil => rfl
  | cons c rest ih =>
    simp only [List.flatMap_cons]
    by_cases tilde : c = '~'
    · subst tilde
      simp [unmark, unmark_cons, ih]
    · by_cases slash : c = '/'
      · subst slash
        simp [unmark, ih]
      · simp [tilde, slash, unmark_cons, ih]

theorem unescape_escape (key : String) : unescape (escape key).toList = key := by
  have back : ∀ s : List Char,
      unmark '0' '~' (s.flatMap fun c => if c = '~' then ['~', '0'] else [c]) = s := by
    intro s
    induction s with
    | nil => rfl
    | cons c rest ih =>
      by_cases tilde : c = '~'
      · subst tilde
        simp [unmark, ih]
      · simp [tilde, unmark_cons, ih]
  have slashes := unmark_escape key.toList
  rw [String.ofList_toList] at slashes
  rw [unescape, slashes, back, String.ofList_toList]

theorem slash_notMem_escape (key : String) : '/' ∉ (escape key).toList := by
  simp only [escape, String.toList_ofList, List.mem_flatMap, not_exists, not_and]
  intro c _
  split
  · decide
  · split
    · decide
    · rename_i slash
      simpa using Ne.symm slash

/-- A further step comes behind the others, whatever characters its key has. -/
theorem steps?_child (pointer key : String) :
    steps? (child pointer key) = (steps? pointer).map (· ++ [key]) := by
  have last : Text.pieces (· == '/') (escape key).toList = [(escape key).toList] := by
    refine Text.pieces_of_none fun c member => ?_
    rw [beq_eq_false_iff_ne]
    rintro rfl
    exact slash_notMem_escape key member
  have written : (child pointer key).toList = pointer.toList ++ '/' :: (escape key).toList := by
    simp [child, String.toList_append]
  simp only [steps?, written]
  cases pointer.toList with
  | nil => simp [last, unescape_escape]
  | cons c rest =>
    by_cases slash : c = '/'
    · subst slash
      simp [Text.pieces_append, last, unescape_escape]
    · simp [slash]

end Pointer

namespace Value

/-- The value a pointer names. -/
def pointer? (pointer : String) (v : Value) : Option Value :=
  (Pointer.steps? pointer).bind (v.at? ·)

theorem pointer?_empty (v : Value) : v.pointer? "" = some v :=
  rfl

/-- Replaces the value a pointer names, if there is one. -/
def putPointer (v : Value) (pointer : String) (w : Value) : Value :=
  match Pointer.steps? pointer with
  | some steps => v.putAt steps w
  | none => v

end Value
end ReactiveView
