/-! What can go wrong while binding data to a view, and the wording of each failure. -/
namespace ReactiveView

inductive BindingError where
  /-- A path runs through something that has no such property. -/
  | unresolvedPath (path segment : String)
  | emptyPath
  | unknownMethod (name : String)
  /-- The target of a write is part of a computed result. -/
  | notAssignable (path : String)
  /-- User code reported a failure of its own. -/
  | handler (method message : String)
  /-- A map has a key that is neither text nor a scalar with a text of its own. -/
  | keyNotText
deriving DecidableEq

def BindingError.message : BindingError → String
  | .unresolvedPath path segment => s!"cannot resolve '{segment}' in path '{path}'"
  | .emptyPath => "empty binding path"
  | .unknownMethod name => s!"unknown method '{name}'"
  | .notAssignable path => s!"path '{path}' is not assignable"
  | .handler method message => s!"method '{method}' failed: {message}"
  | .keyNotText => "data serialization failed: key must be a string"

end ReactiveView
