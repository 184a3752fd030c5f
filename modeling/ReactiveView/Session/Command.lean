import ReactiveView.Script

/-! The commands of a session: questions about values and text, and operations on things that the
session has named. Scripts inside commands may issue commands of type `κ`; a step of a session is
a command, whose scripts issue steps, with an optional name for what it gives. -/
namespace ReactiveView.Session

/-- A question that needs no world. -/
inductive Question where
  | display (v : Value)
  | strictEq (a b : Value)
  | segments (path : String)
  | directive (name value : String)
  | interpolation (text : String)
  | render (text : String) (values : List (String × Value))
  | parse (markup : String)
  | parseHtml (markup : String)

inductive DocumentOp where
  | size
  | isEmpty
  | root
  | element (tag : String)
  | text (data : String)
  | fragment
  | query (selector : String)
  | html
  | dump
  | clearMutations
  | inspect

inductive NodeOp (κ : Type) where
  | id
  | kind
  | tag
  | text
  | value
  | html
  | outer
  | inspect
  | dump
  | children
  | parent
  | first
  | child (index : Nat)
  | query (selector : String)
  | again
  | attributes
  | attribute? (name : String)
  | setAttribute (name value : String)
  | setValue (value : String)
  | setText (text : String)
  | setHtml (markup : String)
  | mutations
  | takeMutations
  | listen (event : String) (run : List (Action κ))
  | listeners (event : String)
  | dispatch (event : String)
  | input (value : String)
  | inspectEvent (event : String)

/-- A computed property: an expression to read it, and actions to write it if it is writable. -/
structure ComputedSpec (κ : Type) where
  getter : Expr
  setter : Option (List (Action κ)) := none
deriving Inhabited

inductive StoreOp (κ : Type) where
  | cells
  | snapshot
  | cell (path : String)
  | dependents (path : String)
  | computed (name : String) (spec : ComputedSpec κ)
  | root
  | assign (path : String) (value : Value)
  | watch (path : String) (run : List (Action κ))

inductive ObserverOp where
  | id
  | path
  | value
  | inspect

inductive RegistryOp where
  | subscribers
  | ids
  | size
  | isEmpty

inductive MountSpec where
  | node (name : String)
  | selector (document selector : String)

inductive DataSpec where
  | plain (data : Value)
  /-- A map whose keys are data. -/
  | keyed (pairs : List (Value × Value))
deriving Inhabited

structure ViewSpec (κ : Type) where
  mount : Option MountSpec := none
  data : DataSpec := .plain .null
  methods : List (String × List (Action κ)) := []
  computed : List (String × ComputedSpec κ) := []
deriving Inhabited

inductive ViewOp (κ : Type) where
  | get (path : String)
  | set (path : String) (value : Value)
  | data
  | observers
  | watch (path : String) (run : List (Action κ))
  | observer (path : String) (index : Nat) (store : Option String)
  | mount
  | store
  | compile
  | inspect
  | weak

inductive Command (κ : Type) where
  | ask (question : Question)
  | newDocument
  | parseDocument (markup : String)
  | document (name : String) (op : DocumentOp)
  | node (name : String) (op : NodeOp κ)
  | append (node child : String)
  | same (node other : String)
  | dropNode (name : String)
  | newStore (data : Value)
  | store (name : String) (op : StoreOp κ)
  | property (store handle key : String) (observer : Option String)
  | setProperty (store handle key : String) (value : Value)
  | valueOf (store handle : String)
  | resolve (store path : String) (observer : Option String)
  | inspectComputed (spec : ComputedSpec κ)
  | observer (name : String) (op : ObserverOp)
  | update (observer store : String)
  | dropObserver (name : String)
  | newRegistry
  | registry (name : String) (op : RegistryOp)
  | depend (registry observer : String)
  | newView (spec : ViewSpec κ)
  | inspectOptions (spec : ViewSpec κ)
  | view (name : String) (op : ViewOp κ)
  | callMethod (node view method event : String)
  | dropView (name : String)
  | upgrade (weak : String)
deriving Inhabited

inductive Step where
  | mk (name : Option String) (command : Command Step)
deriving Inhabited

end ReactiveView.Session
