import ReactiveView.Session.Inspect
import ReactiveView.Session.Question
import ReactiveView.Session.Reply

/-! What the operations on a named thing do. -/
namespace ReactiveView.Session

variable {κ : Type}

def nodeReply (d : DocumentId) (id : Option NodeId) : Reply :=
  .found (id.map fun id => .node ⟨d, id⟩)

def DocumentOp.run (d : DocumentId) : DocumentOp → Run κ Reply
  | .size => return .count (← Run.document d).size
  | .isEmpty => return .flag ((← Run.document d).size == 0)
  | .root => return .made (.node ⟨d, Document.rootId⟩)
  | .element tag => do
    return .made (.node (← Run.createNode d { kind := .element, tag := Text.lower tag }))
  | .text data => return .made (.node (← Run.createNode d { kind := .text, data }))
  | .fragment => return .made (.node (← Run.createNode d { kind := .fragment }))
  | .query selector => return nodeReply d ((← Run.document d).query? Document.rootId selector)
  | .html => return .text ((← Run.document d).innerHtml Document.rootId)
  | .dump => return .data ((← Run.document d).branch Document.rootId).listing
  | .clearMutations => do
    Run.edit d fun _ doc => doc.clearMutations
    return .nothing
  | .inspect => return .text (Inspect.document (← Run.document d))

def ComputedSpec.computed (spec : ComputedSpec κ) : Computed κ :=
  { getter := spec.getter.onRead, setter := spec.setter.map Action.onWrite }

def handleListing : Handle → Value
  | .object cell => .ofPairs [("object", .ofNat cell)]
  | .leaf cell pointer => .ofPairs [("leaf", .ofNat cell), ("pointer", .string pointer)]
  | .detached v => .ofPairs [("detached", v)]

def handleReply (handle : Handle) : Reply :=
  { answer := handleListing handle, entity := some (.handle handle) }

def outcomeName : Outcome → String
  | .changed => "Changed"
  | .created => "Created"
  | .unchanged => "Unchanged"
  | .silent => "Silent"
  | .missing => "Missing"
  | .rejected => "Rejected"

def idListing (ids : List ObserverId) : Value :=
  .array (ids.map .ofNat)

section

variable (perform : Performer κ)

def NodeOp.run (ref : NodeRef) : NodeOp κ → Run κ Reply
  | .id => return .count ref.node
  | .kind => return .text (← Run.node ref).kind.name
  | .tag => return .text (← Run.node ref).tag
  | .text => return .text ((← Run.document ref.document).textContent ref.node)
  | .value => return .text (← Run.node ref).value
  | .html => return .text ((← Run.document ref.document).innerHtml ref.node)
  | .outer => return .text ((← Run.document ref.document).outerHtml ref.node)
  | .inspect => return .text (Inspect.node ref.node (← Run.node ref))
  | .dump => return .data ((← Run.document ref.document).branch ref.node).listing
  | .children => do
    let doc ← Run.document ref.document
    return .data (.strings ((doc.node ref.node).children.map doc.outerHtml))
  | .parent => return nodeReply ref.document (← Run.node ref).parent
  | .first => return nodeReply ref.document (← Run.node ref).children.head?
  | .child index => return nodeReply ref.document (← Run.node ref).children[index]?
  | .query selector => do
    return nodeReply ref.document ((← Run.document ref.document).query? ref.node selector)
  | .again => return .made (.node ref)
  | .attributes => return .data (attributeListing (← Run.node ref).attributes)
  | .attribute? name => return .data (((← Run.node ref).attribute? name).elim .null .string)
  | .setAttribute name s => do
    Run.edit ref.document fun _ doc => doc.setAttribute ref.node name s
    return .nothing
  | .setValue s => do
    Run.setValue ref s
    return .nothing
  | .setText s => do
    Run.setText ref s
    return .nothing
  | .setHtml markup => do
    Run.setHtml ref markup
    return .nothing
  | .mutations => return .data (← Run.node ref).mutations.listing
  | .takeMutations => do
    let mutations := (← Run.node ref).mutations
    Run.updateNode ref fun n => { n with mutations := {} }
    return .data mutations.listing
  | .listen event actions => do
    ref.listen event (.code (Action.onEvent {} actions))
    return .nothing
  | .listeners event => return .count ((← Run.node ref).listenersOf event).length
  | .dispatch event => do
    ref.dispatch perform event
    return .nothing
  | .input s => do
    ref.input perform s
    return .nothing
  | .inspectEvent event => return .text (Inspect.event ⟨event, ref⟩)

def StoreOp.run (s : StoreId) : StoreOp κ → Run κ Reply
  | .cells => return .count (← Run.store s).cells.size
  | .snapshot => return .data (← Run.store s).snapshot
  | .cell path => return .data (((← Run.store s).cellAt? path).elim .null .ofNat)
  | .dependents path => do
    let w ← Run.world
    return .data (((← Run.store s).dependents? w.observerAlive path).elim .null idListing)
  | .computed name spec => do
    Run.setStore s ((← Run.store s).defineComputed name spec.computed)
    return .flag spec.setter.isSome
  | .root => return handleReply (.object (← Run.store s).root)
  | .assign path value => do
    Scope.assign perform { store := s } path value
    return .nothing
  | .watch path actions => do
    let o ← observe perform s path (.code (Action.onChange (.scope { store := s }) actions))
    return { answer := .ofNat o, entity := some (.observer o) }

def property (scope : Scope) (parent : Handle) (key : String) : Run κ Reply := do
  match ← scope.property? perform parent key with
  | none => return .nothing
  | some handle => return handleReply handle

def ObserverOp.run (o : ObserverId) : ObserverOp → Run κ Reply
  | .id => return .count o
  | .path => return .text (← Run.observer o).path
  | .value => return .data (← Run.observer o).value
  | .inspect => return .text (Inspect.observer o (← Run.observer o))

/-- Registries belong to the session alone, so a changed one is kept under its name. -/
def RegistryOp.run (name : String) (r : Registry) : RegistryOp → Run κ Reply
  | .subscribers => do
    let kept := r.prune (← Run.world).observerAlive
    rename fun names => (Entity.registry kept).bind name names
    return .data (idListing kept.entries)
  | .ids => return .data (idListing (r.ids (← Run.world).observerAlive))
  | .size => return .count (r.size (← Run.world).observerAlive)
  | .isEmpty => return .flag (r.isEmpty (← Run.world).observerAlive)

def depend (name : String) (r : Registry) (o : ObserverId) : Run κ Reply := do
  let (added, r) := r.depend o
  rename fun names => (Entity.registry r).bind name names
  return .flag added

def newView (levels : Nat) (options : ViewOptions κ) : Run κ Reply := do
  let v ← View.create perform levels options
  let view ← Run.view v
  return {
    answer := .ofPairs
      [("mounted", .bool view.mount.isSome), ("observers", .ofNat view.observers.length)]
    entity := some (.view v) }

/-- The observer of a view at a position among the dependents of a path. -/
def ownObserver (v : ViewId) (path : String) (index : Nat) (store : Option String) :
    Run κ Reply := do
  let w ← Run.world
  let view ← Run.view v
  let s := (store.bind fun name => w.names.stores.lookup name).getD view.store
  let ids := (← Run.store s).dependents? w.observerAlive path
  match ids.bind (·[index]?) with
  | none => return .nothing
  | some o =>
    if view.observers.contains o then
      let observer ← Run.observer o
      return {
        answer := .ofPairs
          [("id", .ofNat o), ("path", .string observer.path), ("value", observer.value)]
        entity := some (.observer o) }
    else return .nothing

def ViewOp.run (levels : Nat) (v : ViewId) : ViewOp κ → Run κ Reply
  | .get path => return .data (← View.get perform v path)
  | .set path value => do
    View.set perform v path value
    return .nothing
  | .data => return .data (← View.data v)
  | .observers => return .count (← Run.view v).observers.length
  | .watch path actions => do
    let effect := Effect.viewCode v (Action.onChange (.view v) actions)
    return .count (← View.observe perform v path effect)
  | .observer path index named => ownObserver v path index named
  | .mount => return .found ((← Run.view v).mount.map .node)
  | .store => return .made (.store (← Run.view v).store)
  | .compile => do
    View.compile perform levels v
    return .nothing
  | .inspect => return .text (Inspect.view (← Run.view v))
  | .weak => return .made (.weakView v)

end
end ReactiveView.Session
