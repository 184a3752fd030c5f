import ReactiveView.World.Run

/-! Reading and writing paths, and the reactions to a write. A tracked read registers the observer
on every cell it passes, also inside the getters of computed properties. A write that changes a
cell updates the observers registered there, in their order, before it returns; each of them reads
its path again and runs its effect if the value differs. The first failure ends all of it. -/
namespace ReactiveView

variable {κ : Type}

namespace Scope

variable (perform : Performer κ)

def register (scope : Scope) (cell : CellId) : Run κ Unit := do
  match scope.tracker with
  | none => return
  | some o =>
    let s ← Run.store scope.store
    Run.setStore scope.store (s.setRegistry cell ((s.registry cell).depend o).2)

/-- Reads one property of a place. -/
def property? (scope : Scope) (parent : Handle) (key : String) : Run κ (Option Handle) := do
  match (← Run.store scope.store).find parent key with
  | .missing => return none
  | .inside handle => return some handle
  | .cell id =>
    scope.register id
    return some ((← Run.store scope.store).handleOf id)
  | .computed id property =>
    scope.register id
    return some (.detached (← (property.getter scope).run perform))

/-- Follows keys from a place; a missing property is a failure of the whole path. -/
def walk (scope : Scope) (path : String) : List String → Handle → Run κ Handle
  | [], handle => return handle
  | key :: rest, handle => do
    match ← scope.property? perform handle key with
    | none => Run.fail (.unresolvedPath path key)
    | some next => walk scope path rest next

def isNull (s : Store (Computed κ)) : Handle → Bool
  | .object _ => false
  | handle => (s.valueOf handle).isNull

/-- The place that holds the last property of a path, and the key of that property. -/
def parentOf (scope : Scope) (path : String) : Run κ (Handle × String) := do
  let keys ← Run.ofExcept (Path.segments path)
  let root := Handle.object (← Run.store scope.store).root
  return (← scope.walk perform path keys.dropLast root, keys.getLastD "")

/-- Reads a path. A missing last property reads as null, unless its parent is null. -/
def resolve (scope : Scope) (path : String) : Run κ Value := do
  let (parent, key) ← scope.parentOf perform path
  match ← scope.property? perform parent key with
  | some handle => return (← Run.store scope.store).valueOf handle
  | none =>
    if isNull (← Run.store scope.store) parent then Run.fail (.unresolvedPath path key)
    else return .null

end Scope

section

variable (perform : Performer κ)

/-- Renders a template from the data of a store. -/
def renderFrom (store : StoreId) (template : List Piece) : Run κ String :=
  Template.render (fun path => Scope.resolve perform { store } path) template

def Run.setText (ref : NodeRef) (text : String) : Run κ Unit :=
  Run.edit ref.document fun held doc => doc.setTextContent held ref.node text

def Run.setHtml (ref : NodeRef) (markup : String) : Run κ Unit :=
  Run.edit ref.document fun held doc => doc.setInnerHtml held ref.node markup

def Run.setValue (ref : NodeRef) (value : String) : Run κ Unit :=
  Run.edit ref.document fun _ doc => doc.setValue ref.node value

def Effect.fire (effect : Effect κ) (new old : Value) : Run κ Unit :=
  match effect with
  | .formValue target => Run.setValue target new.propertyText
  | .html target => Run.setHtml target new.propertyText
  | .text target => Run.setText target new.propertyText
  | .template view target pieces =>
    Run.whileAlive view do
      let text ← renderFrom perform (← Run.view view).store pieces
      Run.setText target text
  | .code run => (run new old).run perform
  | .viewCode view run => Run.whileAlive view ((run new old).run perform)

/-- Reads the path of an observer again. The new value is kept before the effect runs. -/
def updateObserver (store : StoreId) (o : ObserverId) : Run κ Unit := do
  let new ← Scope.resolve perform { store } (← Run.observer o).path
  let observer ← Run.observer o
  if observer.value.strictEq new then return
  Run.setObserved o new
  Run.modify fun w => { w with journal := ⟨o, new, observer.value⟩ :: w.journal }
  observer.effect.fire perform new observer.value

/-- Updates observers in order and keeps all of them alive until the last is done. -/
def notify (store : StoreId) (observers : List ObserverId) : Run κ Unit :=
  Run.pinning (observers.map .observer) (observers.forM (updateObserver perform store))

/-- The live observers of a cell; dead ones leave its registry. -/
def subscribers (store : StoreId) (cell : CellId) : Run κ (List ObserverId) := do
  let w ← Run.world
  let s ← Run.store store
  let kept := (s.registry cell).prune w.observerAlive
  Run.setStore store (s.setRegistry cell kept)
  return kept.entries

end

namespace Scope

variable (perform : Performer κ)

/-- Writes one property of a place. A computed property without a setter ignores the write. -/
def set (scope : Scope) (parent : Handle) (key : String) (value : Value) : Run κ Outcome := do
  let (written, s) := (← Run.store scope.store).write parent key value
  Run.setStore scope.store s
  match written with
  | .done outcome => return outcome
  | .computed property =>
    match property.setter with
    | none => return .changed
    | some setter =>
      (setter { store := scope.store } value).run perform
      return .changed
  | .cell id =>
    notify perform scope.store (← subscribers scope.store id)
    return .changed

/-- Writes a path, reading the way to it untracked. A missing last property is created. -/
def assign (scope : Scope) (path : String) (value : Value) : Run κ Unit := do
  let (parent, key) ← parentOf perform { store := scope.store } path
  match ← scope.set perform parent key value with
  | .missing => Run.fail (.unresolvedPath path key)
  | .rejected => Run.fail (.notAssignable path)
  | .changed | .created | .unchanged | .silent => return

end Scope

/-- Makes an observer and captures what it depends on. A blank path is refused before the observer
is numbered; a path that does not resolve uses a number up. -/
def observe (perform : Performer κ) (store : StoreId) (path : String) (effect : Effect κ) :
    Run κ ObserverId := do
  if Path.isEmpty path then Run.fail .emptyPath
  else
    let id := (← Run.world).observers.size
    Run.modify fun w => { w with observers := w.observers.push { path, effect } }
    let initial ← Run.pinning [.observer id]
      (Scope.resolve perform { store, tracker := some id } path)
    Run.setObserved id initial
    return id

end ReactiveView
