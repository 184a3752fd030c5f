import ReactiveView.BindingError
import ReactiveView.Value.Basic

/-! Maps whose keys are data. A scalar key has a text, which becomes the key of a field; null,
arrays and objects have none. -/
namespace ReactiveView.Value

def keyText? : Value → Option String
  | .string s => some s
  | .number n => some n.literal
  | .bool b => some (if b then "true" else "false")
  | _ => none

/-- The object of a map, read in order. The first key without a text makes it fail. -/
def ofKeyed? (pairs : List (Value × Value)) : Except BindingError Value := do
  let fields ← pairs.mapM fun (key, v) =>
    match key.keyText? with
    | some text => pure (text, v)
    | none => throw .keyNotText
  return .ofPairs fields

end ReactiveView.Value
