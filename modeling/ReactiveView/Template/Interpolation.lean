import ReactiveView.Text.Blank
import ReactiveView.Value.Basic

/-! Interpolation in text. A slot is two opening braces, a path with blanks around it, and two
closing braces; the path is not empty and holds no brace. `Template.scan` splits a text into
literal characters and slots, from the left and without overlap, and rendering puts the shown text
of a looked-up value in place of each slot. -/
namespace ReactiveView

inductive Piece where
  | literal (c : Char)
  | slot (path : String)
deriving DecidableEq

namespace Template

def isBrace (c : Char) : Bool :=
  c == '\x7b' || c == '\x7d'

/-- Reads a slot behind its two opening braces: the path, and the text behind the slot. -/
def slot? (s : List Char) : Option (List Char × List Char) :=
  let path := Text.trim (s.takeWhile fun c => !isBrace c)
  match s.dropWhile fun c => !isBrace c with
  | '\x7d' :: '\x7d' :: rest => if path = [] then none else some (path, rest)
  | _ => none

theorem slot?_shorter {s path rest : List Char} (h : slot? s = some (path, rest)) :
    rest.length < s.length := by
  have bound := Text.length_dropWhile_le (fun c => !isBrace c) s
  simp only [slot?] at h
  split at h
  · rename_i tail same
    split at h
    · contradiction
    · simp only [Option.some.injEq, Prod.mk.injEq] at h
      obtain ⟨-, rfl⟩ := h
      rw [same] at bound
      simp only [List.length_cons] at bound
      omega
  · contradiction

def scan : List Char → List Piece
  | '\x7b' :: '\x7b' :: s =>
    match found : slot? s with
    | some (path, rest) =>
      have := slot?_shorter found
      .slot (String.ofList path) :: scan rest
    | none => .literal '\x7b' :: scan ('\x7b' :: s)
  | c :: s => .literal c :: scan s
  | [] => []
termination_by s => s.length

def Piece.path? : Piece → Option String
  | .literal _ => none
  | .slot path => some path

/-- The paths of the slots, in order and with repeats. -/
def paths (template : List Piece) : List String :=
  template.filterMap Piece.path?

/-- Looks every slot up, from the left, and joins the pieces; the first failing look-up ends it. -/
def render {m : Type → Type} [Monad m] (lookup : String → m Value) (template : List Piece) :
    m String := do
  let parts ← template.mapM fun
    | .literal c => pure (String.singleton c)
    | .slot path => do return (← lookup path).display
  return String.join parts

def ofString (text : String) : List Piece :=
  scan text.toList

def hasSlot (template : List Piece) : Bool :=
  !(paths template).isEmpty

end Template
end ReactiveView
