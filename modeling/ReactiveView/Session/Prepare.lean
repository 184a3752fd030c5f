import ReactiveView.Session.Operation
import ReactiveView.Value.Keyed

/-! From commands to runs. The names a command uses are looked up before anything else happens, in
the order in which the command has them, and what they name is held while the command runs. -/
namespace ReactiveView.Session

variable {κ : Type} (perform : Performer κ) (names : Names)

def withNode (field name : String) (f : NodeRef → Except Unbound (Run κ Reply)) :
    Except Unbound (Run κ Reply) := do
  let ref ← find field names.nodes name
  return Run.pinning [.node ref] (← f ref)

def withObserver (name : String) (f : ObserverId → Except Unbound (Run κ Reply)) :
    Except Unbound (Run κ Reply) := do
  let o ← find "obs" names.observers name
  return Run.pinning [.observer o] (← f o)

def withTracker (name : Option String) (f : Option ObserverId → Except Unbound (Run κ Reply)) :
    Except Unbound (Run κ Reply) :=
  match name with
  | none => f none
  | some name => withObserver names name fun o => f (some o)

def withView (name : String) (f : ViewId → Except Unbound (Run κ Reply)) :
    Except Unbound (Run κ Reply) := do
  let v ← find "vm" names.views name
  return Run.pinning [.view v] (← f v)

def withMount (mount : Option MountSpec) (f : Option MountPoint → Except Unbound (Run κ Reply)) :
    Except Unbound (Run κ Reply) :=
  match mount with
  | none => f none
  | some (.node name) => withNode names "node" name fun ref => f (some (.node ref))
  | some (.selector document selector) => do
    let d ← find "doc" names.documents document
    f (some (.selector d selector))

def DataSpec.value : DataSpec → Except BindingError Value
  | .plain data => .ok data
  | .keyed pairs => Value.ofKeyed? pairs

/-- Hands the options of a view on. Data without a value fails before a name is looked up. -/
def ViewSpec.prepare (spec : ViewSpec κ) (f : ViewOptions κ → Run κ Reply) :
    Except Unbound (Run κ Reply) :=
  match spec.data.value with
  | .error e => .ok (Run.fail e)
  | .ok data => withMount names spec.mount fun mount =>
    let methods := spec.methods.map fun m => (m.1, Action.onCall m.2)
    let computed := Entries.merge (spec.computed.map fun c => (c.1, c.2.computed))
    .ok (f { mount, data, methods, computed })

def Command.prepare (levels : Nat) : Command κ → Except Unbound (Run κ Reply)
  | .ask question => .ok (Reply.data <$> Run.ofExcept question.answer)
  | .newDocument => .ok do return .made (.document (← Run.createDocument .empty))
  | .parseDocument markup => .ok do
    return .made (.document (← Run.createDocument (.ofMarkup markup)))
  | .document name op => return op.run (← find "doc" names.documents name)
  | .node name op => withNode names "node" name fun ref => .ok (op.run perform ref)
  | .append name other =>
    withNode names "node" name fun ref => withNode names "child" other fun child => .ok do
      Run.edit ref.document fun _ doc => doc.append ref.node child.node
      return .nothing
  | .same name other =>
    withNode names "node" name fun ref => withNode names "other" other fun ref' =>
      .ok (pure (.flag (ref == ref')))
  | .dropNode name => .ok (unbind (·.nodes) (fun t n => { n with nodes := t }) name)
  | .newStore data => .ok do return .made (.store (← Run.createStore (.ofValue data)))
  | .store name op => return op.run perform (← find "store" names.stores name)
  | .property name handle key tracking => do
    let s ← find "store" names.stores name
    let parent ← find "handle" names.handles handle
    withTracker names tracking fun tracker =>
      .ok (Session.property perform ⟨s, tracker⟩ parent key)
  | .setProperty name handle key value => do
    let s ← find "store" names.stores name
    let parent ← find "handle" names.handles handle
    return do return .text (outcomeName (← Scope.set perform { store := s } parent key value))
  | .valueOf name handle => do
    let s ← find "store" names.stores name
    let place ← find "handle" names.handles handle
    return do return .data ((← Run.store s).valueOf place)
  | .resolve name path tracking => do
    let s ← find "store" names.stores name
    withTracker names tracking fun tracker =>
      .ok (Reply.data <$> Scope.resolve perform ⟨s, tracker⟩ path)
  | .inspectComputed spec => .ok (pure (.text (Inspect.computed spec.setter.isSome)))
  | .observer name op => withObserver names name fun o => .ok (op.run o)
  | .update name against => withObserver names name fun o => do
    let s ← find "store" names.stores against
    return do
      updateObserver perform s o
      return .nothing
  | .dropObserver name => .ok (unbind (·.observers) (fun t n => { n with observers := t }) name)
  | .newRegistry => .ok (pure (.made (.registry {})))
  | .registry name op => return op.run name (← find "reg" names.registries name)
  | .depend name registered => do
    let r ← find "reg" names.registries name
    withObserver names registered fun o => .ok (Session.depend name r o)
  | .newView spec => spec.prepare names (Session.newView perform levels)
  | .inspectOptions spec => spec.prepare names fun options => Reply.text <$> Inspect.options options
  | .view name op => withView names name fun v => .ok (op.run perform levels v)
  | .callMethod target name method event =>
    withNode names "node" target fun ref => withView names name fun v => .ok do
      View.call perform v method ⟨event, ref⟩
      return .nothing
  | .dropView name => .ok (unbind (·.views) (fun t n => { n with views := t }) name)
  | .upgrade name => do
    let v ← find "weak" names.weakViews name
    return do return .found (if (← Run.world).viewAlive v then some (.view v) else none)

end ReactiveView.Session
