import ReactiveView.BindingError
import ReactiveView.Document.Node
import ReactiveView.Registry
import ReactiveView.Value.Basic

/-! User code: getters, setters, effects, methods and listeners. A program is a tree of calls, each
followed by the program that its answer chooses, so user code is any function of the answers it has
seen. What a call does is not decided here; `κ` is the type of the commands that code may address
to the host of the library. -/
namespace ReactiveView

abbrev DocumentId := Nat

abbrev StoreId := Nat

abbrev ViewId := Nat

/-- A node of one of several documents. -/
structure NodeRef where
  document : DocumentId
  node : NodeId
deriving DecidableEq

structure Event where
  name : String
  target : NodeRef
deriving DecidableEq

/-- Access to the data of a store; reads register the tracking observer, if there is one. -/
structure Scope where
  store : StoreId
  tracker : Option ObserverId := none
deriving DecidableEq

/-- The data that user code runs on. -/
inductive Source where
  | scope (s : Scope)
  | view (v : ViewId)
deriving DecidableEq

inductive Call (κ : Type) where
  | read (source : Source) (path : String)
  | write (source : Source) (path : String) (value : Value)
  | formValue (node : NodeRef)
  | invoke (view : ViewId) (method : String) (event : Event)
  | log (value : Value)
  | host (command : κ)

inductive Program (κ α : Type) where
  | done (result : Except BindingError α)
  | call (c : Call κ) (next : Except BindingError Value → Program κ α)

namespace Program

variable {κ α β : Type}

def bind (p : Program κ α) (f : α → Program κ β) : Program κ β :=
  match p with
  | .done (.error e) => .done (.error e)
  | .done (.ok a) => f a
  | .call c next => .call c fun answer => (next answer).bind f

instance : Monad (Program κ) where
  pure a := .done (.ok a)
  bind := bind

def fail (e : BindingError) : Program κ α :=
  .done (.error e)

/-- Makes a call and ends with its error, if it has one. -/
def ask (c : Call κ) : Program κ Value :=
  .call c .done

end Program
end ReactiveView
