import ReactiveView.Entries
import ReactiveView.Value.Basic

/-! Places inside a value, named by steps from its root. A step is an object key or an array index;
an index read along a pointer is canonical, without a sign or leading zeros, while a single
member may also be named by an index with a plus sign or leading zeros. -/
namespace ReactiveView

namespace Index

def digits? (s : List Char) : Option Nat :=
  if s ≠ [] && s.all Char.isDigit then some (s.foldl (fun n c => 10 * n + (c.toNat - '0'.toNat)) 0)
  else none

/-- Decimal digits, after at most one plus sign. -/
def parse? (key : String) : Option Nat :=
  match key.toList with
  | '+' :: rest => digits? rest
  | s => digits? s

/-- Decimal digits without a superfluous leading zero. -/
def canonical? (key : String) : Option Nat :=
  match key.toList with
  | '0' :: _ :: _ => none
  | s => digits? s

end Index

namespace Value

/-- The member a key names, by any spelling of an array index. -/
def member? (key : String) : Value → Option Value
  | .object fields => fields.lookup key
  | .array items => (Index.parse? key).bind (items[·]?)
  | _ => none

/-- The member one step of a pointer names. -/
def step? (key : String) : Value → Option Value
  | .object fields => fields.lookup key
  | .array items => (Index.canonical? key).bind (items[·]?)
  | _ => none

def at? : List String → Value → Option Value
  | [], v => some v
  | key :: rest, v => (v.step? key).bind (at? rest)

/-- Replaces the member one step names, if there is one. -/
def putStep (v : Value) (key : String) (w : Value) : Value :=
  match v with
  | .object fields => .object (Entries.set key w fields)
  | .array items =>
    match Index.canonical? key with
    | some i => .array (items.set i w)
    | none => v
  | _ => v

/-- Replaces the value at a place that exists. -/
def putAt (v : Value) (steps : List String) (w : Value) : Value :=
  match steps with
  | [] => w
  | key :: rest =>
    match v.step? key with
    | some inner => v.putStep key (inner.putAt rest w)
    | none => v

end Value

/-- What a write to a property did. -/
inductive Outcome where
  /-- The value changed and the observers of the property were told. -/
  | changed
  | created
  | unchanged
  /-- The value changed inside a leaf, which has no observers of its own. -/
  | silent
  | missing
  /-- The parent is the result of a computed property. -/
  | rejected
deriving DecidableEq

/-- Writes a member of a value: an absent key is added to an object, an index must exist, and a
scalar equal to the current member is not written. -/
def Value.setMember (v : Value) (key : String) (w : Value) : Outcome × Value :=
  let replace (current : Value) (changed : Value) : Outcome × Value :=
    if w.isScalar && current.strictEq w then (.unchanged, v) else (.silent, changed)
  match v with
  | .object fields =>
    match fields.lookup key with
    | none => (.silent, .object (Fields.insert key w fields))
    | some current => replace current (.object (Entries.set key w fields))
  | .array items =>
    match Index.parse? key with
    | none => (.missing, v)
    | some i =>
      match items[i]? with
      | none => (.missing, v)
      | some current => replace current (.array (items.set i w))
  | _ => (.missing, v)

end ReactiveView
