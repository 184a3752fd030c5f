import ReactiveView.Session.Command
import ReactiveView.View.Mount

/-! What commands answer, and the names of a session. -/
namespace ReactiveView.Session

/-- A name that a command uses and that is not bound. -/
structure Unbound where
  field : String
  name : String
deriving DecidableEq

def Unbound.message (u : Unbound) : String :=
  s!"no {u.field} '{u.name}'"

/-- Something that can be given a name. -/
inductive Entity where
  | document (id : DocumentId)
  | node (ref : NodeRef)
  | store (id : StoreId)
  | handle (place : Handle)
  | observer (id : ObserverId)
  | registry (entries : Registry)
  | view (id : ViewId)
  | weakView (id : ViewId)

/-- Gives a name; the thing that had the name of that kind before loses it. -/
def Entity.bind (name : String) (names : Names) : Entity → Names
  | .document id => { names with documents := Entries.set name id names.documents }
  | .node ref => { names with nodes := Entries.set name ref names.nodes }
  | .store id => { names with stores := Entries.set name id names.stores }
  | .handle place => { names with handles := Entries.set name place names.handles }
  | .observer id => { names with observers := Entries.set name id names.observers }
  | .registry entries => { names with registries := Entries.set name entries names.registries }
  | .view id => { names with views := Entries.set name id names.views }
  | .weakView id => { names with weakViews := Entries.set name id names.weakViews }

/-- A data value as the answer, and what can be named. -/
structure Reply where
  answer : Value
  entity : Option Entity := none

namespace Reply

def nothing : Reply := { answer := .null }

def text (s : String) : Reply := { answer := .string s }

def count (n : Nat) : Reply := { answer := .ofNat n }

def flag (b : Bool) : Reply := { answer := .bool b }

def data (v : Value) : Reply := { answer := v }

def made (entity : Entity) : Reply := { answer := .bool true, entity := some entity }

/-- Answers whether there is something, and gives it if so. -/
def found (entity : Option Entity) : Reply := { answer := .bool entity.isSome, entity }

end Reply

variable {κ α : Type}

def find (field : String) (table : List (String × α)) (name : String) : Except Unbound α :=
  match table.lookup name with
  | some a => .ok a
  | none => .error ⟨field, name⟩

def rename (f : Names → Names) : Run κ Unit :=
  Run.modify fun w => { w with names := f w.names }

/-- Takes a name away, and answers whether it was bound. -/
def unbind (table : Names → List (String × α)) (setTable : List (String × α) → Names → Names)
    (name : String) : Run κ Reply := do
  let entries := table (← Run.world).names
  rename (setTable (entries.filter (·.1 != name)))
  return .flag (entries.any (·.1 == name))

end ReactiveView.Session
