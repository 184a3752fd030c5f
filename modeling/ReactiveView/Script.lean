import ReactiveView.Program

/-! Scripts, a small language for user code. An expression reads data and computes a value; actions
log, write, branch, fail, call methods and issue commands of type `κ`. A script stands for the
program that carries it out from left to right, up to the first failure. -/
namespace ReactiveView

inductive Expr where
  | const (v : Value)
  | get (path : String)
  | var (name : String)
  /-- The shown texts, joined. -/
  | concat (items : List Expr)
  | sum (items : List Expr)
  | product (items : List Expr)
  | floatSum (items : List Expr)
  | floatProduct (items : List Expr)
  | array (items : List Expr)
  | object (fields : List (String × Expr))
  | equal (a b : Expr)
  | less (a b : Expr)
  | cond (test yes no : Expr)
  | fail (method message : String)
deriving Inhabited

inductive Action (κ : Type) where
  | log (e : Expr)
  | set (path : String) (e : Expr)
  | cond (test : Expr) (yes no : List (Action κ))
  | fail (method message : String)
  | call (method : String)
  | command (c : κ)
  | skip
deriving Inhabited

/-- What a script runs on: data, variables, and the method call it belongs to. -/
structure Env where
  source : Option Source := none
  vars : List (String × Value) := []
  method : Option (ViewId × Event) := none

namespace Value

/-- A double that is not finite is null. -/
def ofFloat (f : Float) : Value :=
  match Binary64.ofFloat? f with
  | some x => .number (.double x)
  | none => .null

def toFloat : Value → Float
  | .number n => n.toBinary64.toFloat
  | _ => Binary64.zero.toFloat

def toSigned : Value → Int
  | .number n => n.signed?.getD 0
  | _ => 0

def toBinary64 : Value → Binary64
  | .number n => n.toBinary64
  | _ => .zero

def isTrue : Value → Bool
  | .bool b => b
  | _ => false

/-- Sums wrap around at 64 bits, as products do. -/
def sum (items : List Value) : Value :=
  .number (.whole (.wrap (items.foldl (fun n v => n + v.toSigned) 0)))

def product (items : List Value) : Value :=
  .number (.whole (.wrap (items.foldl (fun n v => n * v.toSigned) 1)))

def floatSum (items : List Value) : Value :=
  ofFloat (items.foldl (fun x v => x + v.toFloat) 0)

def floatProduct (items : List Value) : Value :=
  ofFloat (items.foldl (fun x v => x * v.toFloat) 1)

end Value

def Env.refuse {κ α : Type} (what : String) : Program κ α :=
  .fail (.handler "driver" what)

variable {κ : Type} (env : Env)

namespace Expr

mutual

def eval : Expr → Program κ Value
  | .const v => return v
  | .get path =>
    match env.source with
    | none => Env.refuse "no data"
    | some source => .ask (.read source path)
  | .var name => return (env.vars.lookup name).getD .null
  | .concat items => do return .string (String.join ((← evalAll items).map Value.display))
  | .sum items => do return .sum (← evalAll items)
  | .product items => do return .product (← evalAll items)
  | .floatSum items => do return .floatSum (← evalAll items)
  | .floatProduct items => do return .floatProduct (← evalAll items)
  | .array items => do return .array (← evalAll items)
  | .object fields => do return .ofPairs (← evalFields fields)
  | .equal a b => do
    let x ← eval a
    let y ← eval b
    return .bool (x.strictEq y)
  | .less a b => do
    let x ← eval a
    let y ← eval b
    return .bool (x.toBinary64.lessThan y.toBinary64)
  | .cond test yes no => do
    let t ← eval test
    if t.isTrue then eval yes else eval no
  | .fail method message => .fail (.handler method message)

def evalAll : List Expr → Program κ (List Value)
  | [] => return []
  | e :: rest => do
    let v ← eval e
    return v :: (← evalAll rest)

def evalFields : List (String × Expr) → Program κ (List (String × Value))
  | [] => return []
  | (key, e) :: rest => do
    let v ← eval e
    return (key, v) :: (← evalFields rest)

end
end Expr

namespace Action

mutual

def run : Action κ → Program κ Unit
  | .log e => do
    let v ← e.eval env
    discard <| .ask (.log v)
  | .set path e => do
    let v ← e.eval env
    match env.source with
    | none => Env.refuse "no data"
    | some source => discard <| .ask (.write source path v)
  | .cond test yes no => do
    let t ← test.eval env
    if t.isTrue then runAll yes else runAll no
  | .fail method message => .fail (.handler method message)
  | .call method =>
    match env.method with
    | none => Env.refuse "no event"
    | some (view, event) => discard <| .ask (.invoke view method event)
  | .command c => discard <| .ask (.host c)
  | .skip => return

def runAll : List (Action κ) → Program κ Unit
  | [] => return
  | a :: rest => do
    run a
    runAll rest

end

/-- Code for an event: the variables are its name and the form value of its target. -/
def onEvent (env : Env) (actions : List (Action κ)) (event : Event) : Program κ Unit := do
  let target ← .ask (.formValue event.target)
  runAll { env with vars := [("event", .string event.name), ("target", target)] } actions

/-- Code for a change of a value. -/
def onChange (source : Source) (actions : List (Action κ)) (new old : Value) : Program κ Unit :=
  runAll { source := some source, vars := [("new", new), ("old", old)] } actions

def onWrite (actions : List (Action κ)) (scope : Scope) (value : Value) : Program κ Unit :=
  runAll { source := some (.scope scope), vars := [("arg", value)] } actions

def onCall (actions : List (Action κ)) (view : ViewId) (event : Event) : Program κ Unit :=
  onEvent { source := some (.view view), method := some (view, event) } actions event

end Action

def Expr.onRead (e : Expr) (scope : Scope) : Program κ Value :=
  e.eval { source := some (.scope scope) }

end ReactiveView
