import ReactiveView.Store.Basic

/-! Reading and writing one property of a place in a store. Both are decided here as far as the
store alone can: a computed property and the observers of a changed cell are reported, and acted on
by the caller. -/
namespace ReactiveView

/-- What reading a property finds. -/
inductive Found (γ : Type) where
  | missing
  /-- A cell of its own, which a tracked read registers on. -/
  | cell (id : CellId)
  | computed (id : CellId) (property : γ)
  /-- A place without a cell of its own. -/
  | inside (handle : Handle)

/-- What writing a property comes to. -/
inductive Written (γ : Type) where
  | done (outcome : Outcome)
  /-- The cell was written and its observers are to be told. -/
  | cell (id : CellId)
  | computed (property : γ)

namespace Store

variable {γ : Type}

def findInLeaf (s : Store γ) (id : CellId) (pointer key : String) : Found γ :=
  match s.content id with
  | .leaf v =>
    if (v.pointer? (Pointer.child pointer key)).isSome then
      .inside (.leaf id (Pointer.child pointer key))
    else .missing
  | _ => .missing

/-- An object handle whose cell was overwritten stands for the whole of the new leaf. -/
def find (s : Store γ) (parent : Handle) (key : String) : Found γ :=
  match parent with
  | .object id =>
    match s.content id with
    | .object keys =>
      match keys.lookup key with
      | none => .missing
      | some child =>
        match s.content child with
        | .computed property => .computed child property
        | _ => .cell child
    | _ => s.findInLeaf id "" key
  | .leaf id pointer => s.findInLeaf id pointer key
  | .detached v =>
    match v.member? key with
    | some w => .inside (.detached w)
    | none => .missing

def writeInLeaf (s : Store γ) (id : CellId) (pointer key : String) (w : Value) :
    Written γ × Store γ :=
  match s.content id with
  | .leaf v =>
    match v.pointer? pointer with
    | none => (.done .missing, s)
    | some target =>
      let (outcome, changed) := target.setMember key w
      if outcome = .silent then
        (.done .silent, s.setContent id (.leaf (v.putPointer pointer changed)))
      else (.done outcome, s)
  | _ => (.done .missing, s)

/-- A scalar equal to the scalar in place is not written; any other value replaces the content of
the cell as a leaf. -/
def writeCell (s : Store γ) (id : CellId) (w : Value) : Written γ × Store γ :=
  match s.content id with
  | .computed property => (.computed property, s)
  | .leaf current =>
    if w.isScalar && current.strictEq w then (.done .unchanged, s)
    else (.cell id, s.setContent id (.leaf w))
  | .object _ => (.cell id, s.setContent id (.leaf w))

def write (s : Store γ) (parent : Handle) (key : String) (w : Value) : Written γ × Store γ :=
  match parent with
  | .object id =>
    match s.content id with
    | .object keys =>
      match keys.lookup key with
      | none => (.done .created, s.addMember id key (.leaf w))
      | some child => s.writeCell child w
    | _ => s.writeInLeaf id "" key w
  | .leaf id pointer => s.writeInLeaf id pointer key w
  | .detached _ => (.done .rejected, s)

end Store
end ReactiveView
