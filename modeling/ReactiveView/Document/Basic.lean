import ReactiveView.Document.Node

/-! Documents: nodes in numbered slots, and a free list of dropped subtrees. A slot is used again
once it is released, has no parent and is not held; holding is decided by the caller, who knows
which references to nodes exist. Slot 0 is the root fragment. -/
namespace ReactiveView

structure Document (ℓ : Type) where
  nodes : Array (Node ℓ)
  free : List NodeId := []

namespace Document

variable {ℓ : Type}

def rootId : NodeId := 0

def empty : Document ℓ :=
  { nodes := #[{ kind := .fragment }] }

def size (doc : Document ℓ) : Nat :=
  doc.nodes.size

def node (doc : Document ℓ) (id : NodeId) : Node ℓ :=
  doc.nodes[id]?.getD { kind := .fragment }

def update (doc : Document ℓ) (id : NodeId) (f : Node ℓ → Node ℓ) : Document ℓ :=
  { doc with nodes := doc.nodes.modify id f }

theorem size_update (doc : Document ℓ) (id : NodeId) (f : Node ℓ → Node ℓ) :
    (doc.update id f).size = doc.size := by
  simp [size, update]

theorem node_update_self {doc : Document ℓ} {id : NodeId} (inside : id < doc.size)
    (f : Node ℓ → Node ℓ) : (doc.update id f).node id = f (doc.node id) := by
  simp only [size] at inside
  rw [node, node, update, Array.getElem?_modify, if_pos rfl, Array.getElem?_eq_getElem inside]
  rfl

theorem node_update_of_ne {doc : Document ℓ} {id other : NodeId} (distinct : other ≠ id)
    (f : Node ℓ → Node ℓ) : (doc.update id f).node other = doc.node other := by
  simp [node, update, Array.getElem?_modify, distinct.symm]

/-- Records the change of a node's child list. -/
def flagChildren (n : Node ℓ) : Node ℓ :=
  { n with mutations := { n.mutations with children := true } }

/-- Cuts a node loose as the root of a dropped subtree. -/
def release (doc : Document ℓ) (id : NodeId) : Document ℓ :=
  let free := if (doc.node id).released then doc.free else doc.free ++ [id]
  { doc.update id fun n => { n with parent := none, released := true } with free }

def releaseAll (doc : Document ℓ) (ids : List NodeId) : Document ℓ :=
  ids.foldl release doc

/-- Removes the entry at a position by moving the last entry there. -/
def swapRemove (ids : List NodeId) (i : Nat) : List NodeId :=
  match ids.getLast? with
  | none => []
  | some last => (ids.set i last).dropLast

/-- Whether an entry of the free list can be handed out. -/
def reusable (held : NodeId → Bool) (doc : Document ℓ) (id : NodeId) : Bool :=
  (doc.node id).parent.isNone && !held id

/-- Forgets entries of the free list that were put back into a tree. -/
def pruneFree (doc : Document ℓ) : Document ℓ :=
  { doc with free := doc.free.filter fun id => (doc.node id).released }

/-- Takes the first reusable slot off the free list; its children become dropped subtrees. -/
def reclaim? (held : NodeId → Bool) (doc : Document ℓ) : Option (NodeId × Document ℓ) := do
  let i ← doc.free.findIdx? (doc.reusable held)
  let id ← doc.free[i]?
  let children := (doc.node id).children
  let doc := { doc with free := swapRemove doc.free i }
  return (id, (doc.update id fun n => { n with children := [] }).releaseAll children)

/-- Puts a new node into a reusable slot, or else into a new one. -/
def alloc (held : NodeId → Bool) (doc : Document ℓ) (n : Node ℓ) : NodeId × Document ℓ :=
  let doc := doc.pruneFree
  match doc.reclaim? held with
  | some (id, doc) => (id, doc.update id fun _ => n)
  | none => (doc.size, { doc with nodes := doc.nodes.push n })

/-- Whether `ancestor` is met on the way up from `id`, within so many steps. -/
def climbsTo (doc : Document ℓ) (ancestor : NodeId) : Nat → NodeId → Bool
  | 0, _ => false
  | steps + 1, id =>
    match (doc.node id).parent with
    | none => false
    | some parent => parent == ancestor || doc.climbsTo ancestor steps parent

def isAncestor (doc : Document ℓ) (ancestor id : NodeId) : Bool :=
  doc.climbsTo ancestor doc.size id

/-- Takes a node out of its parent's child list. -/
def detach (doc : Document ℓ) (child : NodeId) : Document ℓ :=
  match (doc.node child).parent with
  | none => doc
  | some parent =>
    (doc.update child fun n => { n with parent := none }).update parent fun n =>
      flagChildren { n with children := n.children.filter (· != child) }

/-- Moves one node to the end of a child list. -/
def place (doc : Document ℓ) (parent child : NodeId) : Document ℓ :=
  ((doc.detach child).update child fun n =>
    { n with parent := some parent, released := false }).update parent fun n =>
      flagChildren { n with children := n.children ++ [child] }

/-- Takes the children out of a fragment that is about to be emptied. -/
def emptyFragment (doc : Document ℓ) (id : NodeId) : Document ℓ :=
  let children := (doc.node id).children
  let doc :=
    if children = [] then doc
    else doc.update id fun n => flagChildren { n with children := [] }
  children.foldl (fun doc c => doc.update c fun n => { n with parent := none }) doc

/-- Moves a node to the end of a child list, or the children of a fragment in its stead. A node is
never moved into its own subtree. -/
def append (doc : Document ℓ) (parent child : NodeId) : Document ℓ :=
  if child = parent || doc.isAncestor child parent then doc
  else if (doc.node child).kind = .fragment then
    (doc.node child).children.foldl (fun doc c => doc.place parent c) (doc.emptyFragment child)
  else doc.place parent child

def clearChildren (doc : Document ℓ) (id : NodeId) : Document ℓ :=
  match (doc.node id).children with
  | [] => doc
  | children =>
    ((doc.update id fun n => { n with children := [] }).releaseAll children).update id flagChildren

def clearMutations (doc : Document ℓ) : Document ℓ :=
  { doc with nodes := doc.nodes.map fun n => { n with mutations := {} } }

end Document
end ReactiveView
