import ReactiveView.Text.Blank

/-! Directives, the attributes that bind an element: `v-model`, `v-html` and `v-text` name a path,
and `v-on:event` names a method. Any other attribute is plain. -/
namespace ReactiveView

inductive Directive where
  | model (path : String)
  | html (path : String)
  | text (path : String)
  | on (event method : String)
deriving DecidableEq

namespace Directive

/-- The text after the `v-` that every directive starts with. -/
def tail? : List Char → Option (List Char)
  | 'v' :: '-' :: rest => some rest
  | _ => none

/-- The kind before the first colon, and the trimmed argument after it if there is a colon. -/
def splitArgument (s : List Char) : String × Option String :=
  let kind := String.ofList (s.takeWhile (· ≠ ':'))
  match s.dropWhile (· ≠ ':') with
  | [] => (kind, none)
  | _ :: argument => (kind, some (String.ofList (Text.trim argument)))

def parse? (name value : String) : Option Directive := do
  let rest ← tail? name.toList
  let target := Text.trimmed value
  match splitArgument rest with
  | ("model", _) => some (.model target)
  | ("html", _) => some (.html target)
  | ("text", _) => some (.text target)
  | ("on", some event) => if event = "" then none else some (.on event target)
  | _ => none

end Directive
end ReactiveView
