import ReactiveView.World.Basic

/-! Runs: computations on a world that can fail. A failure leaves the world as it was changed up to
then. A run without an answer has used up the depth of nesting it was allowed. -/
namespace ReactiveView

def Run (κ α : Type) : Type :=
  World κ → Option (Except BindingError α × World κ)

namespace Run

variable {κ α β : Type}

protected def pure (a : α) : Run κ α :=
  fun w => some (.ok a, w)

protected def bind (x : Run κ α) (f : α → Run κ β) : Run κ β := fun w =>
  match x w with
  | none => none
  | some (.error e, w) => some (.error e, w)
  | some (.ok a, w) => f a w

instance : Monad (Run κ) where
  pure := Run.pure
  bind := Run.bind

instance : LawfulMonad (Run κ) :=
  LawfulMonad.mk' (Run κ)
    (fun x => by
      funext w
      simp only [Functor.map, Run.bind]
      cases x w with
      | none => rfl
      | some result => obtain ⟨_ | _, _⟩ := result <;> rfl)
    (fun _ _ => rfl)
    (fun x _ _ => by
      funext w
      simp only [Bind.bind, Run.bind]
      cases x w with
      | none => rfl
      | some result => obtain ⟨_ | _, _⟩ := result <;> rfl)

def exhausted : Run κ α :=
  fun _ => none

def ofExcept (r : Except BindingError α) : Run κ α :=
  fun w => some (r, w)

def fail (e : BindingError) : Run κ α :=
  ofExcept (.error e)

/-- Turns a failure into an answer. -/
def attempt (x : Run κ α) : Run κ (Except BindingError α) :=
  fun w => (x w).map fun (r, w) => (.ok r, w)

def world : Run κ (World κ) :=
  fun w => some (.ok w, w)

def modify (f : World κ → World κ) : Run κ Unit :=
  fun w => some (.ok (), f w)

/-- Keeps things alive while a run lasts, whether it fails or not. -/
def pinning (pins : List Pin) (x : Run κ α) : Run κ α := fun w =>
  (x { w with pins := pins ++ w.pins }).map fun (r, after) => (r, { after with pins := w.pins })

def document (d : DocumentId) : Run κ (Document (Listener κ)) := do
  return (← world).documents[d]?.getD .empty

def node (ref : NodeRef) : Run κ (Node (Listener κ)) := do
  return (← document ref.document).node ref.node

/-- Changes a document; the change may ask which of its nodes are held. -/
def edit (d : DocumentId)
    (f : (NodeId → Bool) → Document (Listener κ) → Document (Listener κ)) : Run κ Unit :=
  modify fun w => { w with documents := w.documents.modify d (f fun n => w.held ⟨d, n⟩) }

def updateNode (ref : NodeRef) (f : Node (Listener κ) → Node (Listener κ)) : Run κ Unit :=
  edit ref.document fun _ doc => doc.update ref.node f

/-- Adds a node outside the tree. -/
def createNode (d : DocumentId) (n : Node (Listener κ)) : Run κ NodeRef := do
  let w ← world
  let (id, doc) := (← document d).alloc (fun n => w.held ⟨d, n⟩) n
  modify fun w => { w with documents := w.documents.set! d doc }
  return ⟨d, id⟩

def createDocument (doc : Document (Listener κ)) : Run κ DocumentId := do
  let id := (← world).documents.size
  modify fun w => { w with documents := w.documents.push doc }
  return id

def store (s : StoreId) : Run κ (Store (Computed κ)) := do
  return (← world).stores[s]?.getD (.ofValue .null)

def setStore (s : StoreId) (store : Store (Computed κ)) : Run κ Unit :=
  modify fun w => { w with stores := w.stores.set! s store }

def createStore (store : Store (Computed κ)) : Run κ StoreId := do
  let id := (← world).stores.size
  modify fun w => { w with stores := w.stores.push store }
  return id

def observer (o : ObserverId) : Run κ (Observer κ) := do
  return (← world).observers[o]?.getD { path := "", effect := .code fun _ _ => pure () }

def setObserved (o : ObserverId) (value : Value) : Run κ Unit :=
  modify fun w =>
    { w with observers := w.observers.modify o fun observer => { observer with value } }

def view (v : ViewId) : Run κ (View κ) := do
  return (← world).views[v]?.getD { store := 0, methods := [], mount := none }

/-- Runs on a view that is kept alive meanwhile, and does nothing for a dead one. -/
def whileAlive (v : ViewId) (x : Run κ Unit) : Run κ Unit := do
  if (← world).viewAlive v then pinning [.view v] x

end Run

/-- How calls of user code are carried out. -/
abbrev Performer (κ : Type) := Call κ → Run κ Value

def Program.run {κ α : Type} (perform : Performer κ) : Program κ α → Run κ α
  | .done r => Run.ofExcept r
  | .call c next => fun w =>
    match perform c w with
    | none => none
    | some (answer, w) => (next answer).run perform w

theorem Program.run_bind {κ α β : Type} (perform : Performer κ) (p : Program κ α)
    (f : α → Program κ β) :
    (p >>= f).run perform = p.run perform >>= fun a => (f a).run perform := by
  induction p with
  | done r => cases r <;> rfl
  | call c next ih =>
    funext w
    simp only [Bind.bind, Program.bind, Run.bind, run] at ih ⊢
    cases perform c w with
    | none => rfl
    | some result => exact congrFun (ih result.1) result.2

end ReactiveView
