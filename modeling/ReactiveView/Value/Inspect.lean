import ReactiveView.Text.Quoted
import ReactiveView.Value.Basic

/-! The inspection text of values, which names the kind of every value and quotes text. -/
namespace ReactiveView

namespace Inspect

def commaList (items : List String) : String :=
  ", ".intercalate items

def list (items : List String) : String :=
  "[" ++ commaList items ++ "]"

/-- Members between braces, without blanks at the braces. -/
def fields (items : List (String × String)) : String :=
  "\x7b" ++ commaList (items.map fun p => p.1 ++ ": " ++ p.2) ++ "\x7d"

/-- A named record, with blanks at the braces. -/
def record (name : String) (items : List (String × String)) : String :=
  name ++ " \x7b " ++ commaList (items.map fun p => p.1 ++ ": " ++ p.2) ++ " \x7d"

/-- A name with its contents in parentheses. -/
def wrapped (name : String) (items : List String) : String :=
  name ++ "(" ++ commaList items ++ ")"

def option : Option String → String
  | none => "None"
  | some s => wrapped "Some" [s]

end Inspect

namespace Value

mutual

def inspect : Value → String
  | .null => "Null"
  | .bool b => Inspect.wrapped "Bool" [if b then "true" else "false"]
  | .number n => Inspect.wrapped "Number" [n.literal]
  | .string s => Inspect.wrapped "String" [Text.quoted s]
  | .array items => "Array " ++ Inspect.list (inspectItems items)
  | .object members => "Object " ++ Inspect.fields (inspectFields members)

def inspectItems : List Value → List String
  | [] => []
  | v :: rest => inspect v :: inspectItems rest

def inspectFields : List (String × Value) → List (String × String)
  | [] => []
  | (key, v) :: rest => (Text.quoted key, inspect v) :: inspectFields rest

end

end Value
end ReactiveView
