import ReactiveView.Path
import ReactiveView.Registry
import ReactiveView.Value.Pointer

/-! Stores: a data object laid out as cells. Every member of an object, and of the objects inside
it, has a cell with a registry of its own; arrays and scalars are leaves. Members are numbered in
the order of their keys, those of a nested object before the nested object, and the root comes
last. Values written later are leaves as a whole. -/
namespace ReactiveView

abbrev CellId := Nat

/-- What a cell holds; `γ` is the type of computed properties. -/
inductive Content (γ : Type) where
  | object (keys : List (String × CellId))
  | leaf (value : Value)
  | computed (property : γ)

structure Cell (γ : Type) where
  content : Content γ
  registry : Registry := {}

structure Store (γ : Type) where
  cells : Array (Cell γ)
  root : CellId

/-- A place reached on a walk through a store. -/
inductive Handle where
  | object (cell : CellId)
  /-- A place inside the value of a leaf. -/
  | leaf (cell : CellId) (pointer : String)
  /-- A value without a cell, made by a computed property. -/
  | detached (value : Value)

namespace Store

variable {γ : Type}

def contentOf (cells : Array (Cell γ)) (id : CellId) : Content γ :=
  (cells[id]?.map (·.content)).getD (.leaf .null)

def content (s : Store γ) (id : CellId) : Content γ :=
  contentOf s.cells id

def registry (s : Store γ) (id : CellId) : Registry :=
  (s.cells[id]?.map (·.registry)).getD {}

def setContent (s : Store γ) (id : CellId) (c : Content γ) : Store γ :=
  { s with cells := s.cells.modify id fun cell => { cell with content := c } }

def setRegistry (s : Store γ) (id : CellId) (r : Registry) : Store γ :=
  { s with cells := s.cells.modify id fun cell => { cell with registry := r } }

theorem content_setContent_self {s : Store γ} {id : CellId} (inside : id < s.cells.size)
    (c : Content γ) : (s.setContent id c).content id = c := by
  rw [content, contentOf, setContent, Array.getElem?_modify, if_pos rfl,
    Array.getElem?_eq_getElem inside]
  rfl

theorem content_setContent_of_ne {s : Store γ} {id other : CellId} (distinct : other ≠ id)
    (c : Content γ) : (s.setContent id c).content other = s.content other := by
  simp [content, contentOf, setContent, Array.getElem?_modify, distinct.symm]

theorem content_setRegistry (s : Store γ) (id other : CellId) (r : Registry) :
    (s.setRegistry id r).content other = s.content other := by
  by_cases same : id = other <;>
    simp [content, contentOf, setRegistry, Array.getElem?_modify, same, Option.map_map,
      Function.comp_def]

mutual

/-- Adds a cell for a value, after the cells for the members inside it. -/
def layOut (cells : Array (Cell γ)) : Value → CellId × Array (Cell γ)
  | .object fields =>
    let (keys, cells) := layOutFields cells fields
    (cells.size, cells.push { content := .object keys })
  | v => (cells.size, cells.push { content := .leaf v })

def layOutFields (cells : Array (Cell γ)) :
    List (String × Value) → List (String × CellId) × Array (Cell γ)
  | [] => ([], cells)
  | (key, v) :: rest =>
    let (id, cells) := layOut cells v
    let (keys, cells) := layOutFields cells rest
    ((key, id) :: keys, cells)

end

/-- Data that is no object gives a store without properties. -/
def ofValue (data : Value) : Store γ :=
  let (root, cells) := layOut #[] (match data with | .object _ => data | _ => .object [])
  { cells, root }

def child? (s : Store γ) (parent : CellId) (key : String) : Option CellId :=
  match s.content parent with
  | .object keys => keys.lookup key
  | _ => none

/-- The handle of a cell: an object stays one, anything else is the whole of a leaf. -/
def handleOf (s : Store γ) (id : CellId) : Handle :=
  match s.content id with
  | .object _ => .object id
  | _ => .leaf id ""

/-- Adds a cell under a new key of an object cell. -/
def addMember (s : Store γ) (parent : CellId) (key : String) (c : Content γ) : Store γ :=
  match s.content parent with
  | .object keys =>
    let id := s.cells.size
    ({ s with cells := s.cells.push { content := c } }).setContent parent
      (.object (keys ++ [(key, id)]))
  | _ => s

/-- Puts a computed property into the root object, in the place of data under its name. -/
def defineComputed (s : Store γ) (name : String) (property : γ) : Store γ :=
  match s.child? s.root name with
  | some id => s.setContent id (.computed property)
  | none => s.addMember s.root name (.computed property)

/-- The value of a cell, read through so many levels of objects. Computed members are left out. -/
def snapshotTo (s : Store γ) : Nat → CellId → Value
  | levels, id =>
    match s.content id with
    | .leaf v => v
    | .computed _ => .null
    | .object keys =>
      match levels with
      | 0 => .object []
      | levels + 1 =>
        Value.ofPairs <| keys.filterMap fun (key, child) =>
          match s.content child with
          | .computed _ => none
          | _ => some (key, s.snapshotTo levels child)

/-- Objects inside objects are never more than there are cells. -/
def snapshotOf (s : Store γ) (id : CellId) : Value :=
  s.snapshotTo s.cells.size id

def snapshot (s : Store γ) : Value :=
  s.snapshotOf s.root

def valueOf (s : Store γ) : Handle → Value
  | .object id => s.snapshotOf id
  | .leaf id pointer =>
    match s.content id with
    | .leaf v => (v.pointer? pointer).getD .null
    | _ => s.snapshotOf id
  | .detached v => v

def descend? (s : Store γ) (id : CellId) : List String → Option CellId
  | [] => some id
  | key :: rest => (s.child? id key).bind fun child => s.descend? child rest

/-- The cell of the property at a path, if every segment of the path has one. -/
def cellAt? (s : Store γ) (path : String) : Option CellId :=
  s.descend? s.root (Path.pieces path)

/-- The live observers of the property at a path, in the order in which they are told. -/
def dependents? (s : Store γ) (alive : ObserverId → Bool) (path : String) :
    Option (List ObserverId) :=
  (s.cellAt? path).map fun id => (s.registry id).ids alive

end Store
end ReactiveView
