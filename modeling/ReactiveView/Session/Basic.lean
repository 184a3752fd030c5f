import ReactiveView.Session.Prepare

/-! Sessions: steps carried out one after the other on one world. A step that fails leaves the names
as they were, and the session goes on. The values that scripts log during a step are part of its
answer. -/
namespace ReactiveView.Session

/-- Carries a step out, and names what it gives if it asks for that. -/
def Step.run (levels : Nat) (perform : Performer Step) :
    Step → Run Step (Except Unbound Value)
  | .mk name command => do
    match command.prepare perform (← Run.world).names levels with
    | .error u => return .error u
    | .ok prepared =>
      let reply ← prepared
      match name, reply.entity with
      | some name, some entity => rename fun names => entity.bind name names
      | _, _ => pure ()
      return .ok reply.answer

/-- A step inside a script. Its answer is ignored, and an unbound name fails the script. -/
def Step.host (levels : Nat) (perform : Performer Step) (step : Step) : Run Step Unit := do
  match ← step.run levels perform with
  | .ok _ => return
  | .error u => Run.fail (.handler "driver" u.message)

inductive Failure where
  | unbound (u : Unbound)
  | bind (e : BindingError)
  /-- User code was nested too deeply. -/
  | tooDeep
deriving DecidableEq

structure Answer where
  result : Except Failure Value
  log : List Value

/-- How deeply user code may be nested. -/
def depth : Nat := 1 <<< 40

def Step.answer (w : World Step) (step : Step) : Answer × World Step :=
  match step.run depth (performer Step.host depth) w with
  | none => (⟨.error .tooDeep, []⟩, w)
  | some (result, w) =>
    let result := match result with
      | .error e => .error (.bind e)
      | .ok (.error u) => .error (.unbound u)
      | .ok (.ok v) => .ok v
    (⟨result, w.log.reverse⟩, { w with log := [] })

def answersFrom (w : World Step) : List Step → List Answer
  | [] => []
  | step :: rest =>
    let (answer, w) := step.answer w
    answer :: answersFrom w rest

/-- The answers of a session that starts from nothing. -/
def answers (steps : List Step) : List Answer :=
  answersFrom {} steps

end ReactiveView.Session
