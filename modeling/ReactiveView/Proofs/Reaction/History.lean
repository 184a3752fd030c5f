import ReactiveView.Proofs.Reaction.Currency
import ReactiveView.Proofs.Value.Equality

/-! The history of an effect. However the updates of an observer are nested, its effect is started
with the value that the observer held before and the one that it holds from then on, so that the
starts of the effect since the observer was made form a chain. -/
namespace ReactiveView

variable {κ : Type} {o : ObserverId} {before : List Firing} {captured : Value}

open Run

/-- The starts of the effect of an observer, in order. -/
def World.firings (w : World κ) (o : ObserverId) : List Firing :=
  (w.journal.filter (·.observer == o)).reverse

/-- Since an observer held a certain value, each start of its effect took over from the one before:
the old values are that value followed by all new values but the last, which the observer holds now.
No start was for a value equal to the one before. -/
def World.Chained (o : ObserverId) (before : List Firing) (captured : Value) (w : World κ) : Prop :=
  ∃ observer fired, w.observers[o]? = some observer ∧ w.firings o = before ++ fired ∧
    fired.map (·.old) ++ [observer.value] = captured :: fired.map (·.new) ∧
    ∀ f ∈ fired, f.new.strictEq f.old = false

theorem ledger_chained : Ledger (World.Chained (κ := κ) o before captured) where
  elsewhere := by
    rintro w w' ⟨observers, journal⟩ ⟨observer, fired, found, firings, chain⟩
    exact ⟨observer, fired, observers ▸ found, by rwa [World.firings, journal], chain⟩
  made := by
    rintro w new ⟨observer, fired, found, rest⟩
    refine ⟨observer, fired, ?_, rest⟩
    have inside := (Array.getElem?_eq_some_iff.mp found).1
    rw [Array.getElem?_push_lt inside, ← Array.getElem?_eq_getElem inside]
    exact found
  captured := by
    rintro w₀ w p value ⟨observer₀, -, found₀, -⟩ later ⟨observer, fired, found, rest⟩
    refine ⟨observer, fired, ?_, rest⟩
    have apart : p ≠ o := Nat.ne_of_gt
      (Nat.lt_of_lt_of_le (Array.getElem?_eq_some_iff.mp found₀).1 later)
    simp only [Array.getElem?_modify, if_neg apart, found]
  fired := by
    rintro w p observer' new known differs ⟨observer, fired, found, firings, chain, changed⟩
    simp only [World.firings] at firings
    by_cases same : p = o
    · subst same
      obtain rfl := known observer found
      refine ⟨{ observer with value := new }, fired ++ [⟨p, new, observer.value⟩], ?_, ?_, ?_, ?_⟩
      · simp [Array.getElem?_modify, found]
      · simp [World.firings, firings]
      · rw [List.map_append, List.map_append, List.map_singleton, List.map_singleton, chain]
        rfl
      · intro f member
        obtain earlier | last := List.mem_append.mp member
        · exact changed f earlier
        · obtain rfl := List.mem_singleton.mp last
          rwa [Value.strictEq_comm]
    · refine ⟨observer, fired, ?_, ?_, chain, changed⟩
      · simp [Array.getElem?_modify, same, found]
      · simp [World.firings, same, firings]

/-- Observers are never taken away. -/
theorem ledger_size (n : Nat) : Ledger (κ := κ) fun w => n ≤ w.observers.size where
  elsewhere := fun still bound => still.observers ▸ bound
  made := fun _ bound => Nat.le_trans bound (by simp)
  captured := fun _ _ _ bound => Nat.le_trans bound (by simp)
  fired := fun _ _ bound => Nat.le_trans bound (by simp)

/-- What can be asked of the library from outside, and by code that the library runs. -/
inductive Request (κ : Type) where
  | assign (store : StoreId) (path : String) (value : Value)
  | update (store : StoreId) (o : ObserverId)
  | watch (store : StoreId) (name path : String) (effect : Effect κ)
  | define (store : StoreId) (name : String) (property : Computed κ)
  | dispatch (node : NodeRef) (event : String)
  | code (program : Program κ Unit)

def Request.run (perform : Performer κ) : Request κ → Run κ Unit
  | .assign store path value => Scope.assign perform { store } path value
  | .update store o => Run.pinning [.observer o] (updateObserver perform store o)
  | .watch store name path effect => do
    let o ← observe perform store path effect
    Run.modify fun w => w.naming (Entries.set name o w.names.observers)
  | .define store name property => do
    Run.setStore store ((← Run.store store).defineComputed name property)
  | .dispatch node event => node.dispatch perform event
  | .code program => program.run perform

/-- A host whose commands are requests to the library. -/
def obeying (commands : κ → Request κ) (_ : Nat) (perform : Performer κ) (command : κ) :
    Run κ Unit :=
  (commands command).run perform

open Classical in
/-- Carries out calls as a performer does, but has no answer to a call made while something does not
hold. -/
noncomputable def guarded (I : World κ → Prop) (host : Nat → Performer κ → κ → Run κ Unit) :
    Nat → Performer κ
  | 0, _ => Run.exhausted
  | levels + 1, c => fun w =>
    if I w then c.carryOut (host levels (guarded I host levels)) (guarded I host levels) w else none

section Requests

variable {I : World κ → Prop} (ledger : Ledger I) {perform perform' : Performer κ}
variable (calls : ∀ c, Mirrors I (perform c) (perform' c))
include ledger calls

theorem Listener.hear_mirrors (event : Event) (listener : Listener κ) :
    Mirrors I (listener.hear perform event) (listener.hear perform' event) := by
  have viewed : ∀ v : ViewId, Mirrors I (Run.view (κ := κ) v) (Run.view v) := fun _ =>
    Mirrors.inspect ledger _
  cases listener with
  | writeBack view path =>
    have form : Mirrors I (Run.node (κ := κ) event.target) (Run.node event.target) :=
      Mirrors.bind (Mirrors.inspect ledger _) fun _ => Mirrors.pure ledger _
    exact Mirrors.whileAlive ledger view <| Mirrors.bind form fun _ =>
      Mirrors.bind (viewed view) fun _ => Scope.assign_mirrors ledger calls _ path _
  | method view name =>
    refine Mirrors.whileAlive ledger view <| Mirrors.bind (viewed view) fun v => ?_
    cases v.methods.lookup name with
    | none => exact Mirrors.ofExcept ledger _
    | some code => exact Mirrors.program calls _
  | code run => exact Mirrors.program calls _

theorem Request.run_mirrors (request : Request κ) :
    Mirrors I (request.run perform) (request.run perform') := by
  cases request with
  | assign store path value => exact Scope.assign_mirrors ledger calls _ path value
  | update store o => exact Mirrors.pinning ledger _ (updateObserver_mirrors ledger calls store o)
  | watch store name path effect =>
    exact Mirrors.bind (observe_mirrors ledger calls store path effect) fun _ =>
      Mirrors.modify ledger fun _ => ⟨rfl, rfl⟩
  | define store name property =>
    exact Mirrors.bind (Mirrors.inspect ledger _) fun _ => Mirrors.modify ledger fun _ => ⟨rfl, rfl⟩
  | dispatch node event =>
    have form : Mirrors I (Run.node (κ := κ) node) (Run.node node) :=
      Mirrors.bind (Mirrors.inspect ledger _) fun _ => Mirrors.pure ledger _
    exact Mirrors.bind form fun _ =>
      Mirrors.pinning ledger _ (Mirrors.forM ledger (Listener.hear_mirrors ledger calls _) _)
  | code program => exact Mirrors.program calls program

end Requests

theorem performer_mirrors {I : World κ → Prop} (ledger : Ledger I) (commands : κ → Request κ) :
    ∀ levels c, Mirrors I (performer (obeying commands) levels c)
      (guarded I (obeying commands) levels c)
  | 0, _ => Mirrors.exhausted _
  | levels + 1, c => by
    have inner := performer_mirrors ledger commands levels
    intro w r w' holds ran
    simp only [guarded, if_pos holds]
    exact Call.carryOut_mirrors ledger inner
      (fun k => Request.run_mirrors ledger inner (commands k)) c w r w' holds ran

theorem Request.run_guarded {I : World κ → Prop} (ledger : Ledger I) (commands : κ → Request κ)
    (levels : Nat) (request : Request κ) :
    Mirrors I (request.run (performer (obeying commands) levels))
      (request.run (guarded I (obeying commands) levels)) :=
  Request.run_mirrors ledger (performer_mirrors ledger commands levels) request

/-- What happens after each other: requests that are answered, with failures as well, and changes
that leave observers alone. -/
inductive Runs (commands : κ → Request κ) (w : World κ) : World κ → Prop
  | start : Runs commands w w
  | request {w₁ w₂ : World κ} {levels : Nat} {request : Request κ} {r : Except BindingError Unit} :
      Runs commands w w₁ → request.run (performer (obeying commands) levels) w₁ = some (r, w₂) →
      Runs commands w w₂
  | elsewhere {w₁ w₂ : World κ} : Runs commands w w₁ → Elsewhere w₁ w₂ → Runs commands w w₂

theorem Runs.keeps {I : World κ → Prop} (ledger : Ledger I) {commands : κ → Request κ}
    {w w' : World κ} (ran : Runs commands w w') (holds : I w) : I w' := by
  induction ran with
  | start => exact holds
  | request _ answered ih => exact (Request.run_guarded ledger commands _ _ _ _ _ ih answered).1
  | elsewhere _ still ih => exact ledger.elsewhere still ih

/-- An observer that was made is there. -/
theorem observe_found {commands : κ → Request κ} {levels : Nat} {id : StoreId} {path : String}
    {effect : Effect κ} {w w₀ : World κ}
    (made : observe (performer (obeying commands) levels) id path effect w = some (.ok o, w₀)) :
    ∃ observer, w₀.observers[o]? = some observer := by
  cases blank : Path.isEmpty path with
  | true =>
    unfold observe at made
    rw [blank] at made
    cases made
  | false =>
    rw [observe_run _ id blank] at made
    obtain ⟨initial, w₁, resolved, made⟩ := bind_eq_ok made
    obtain ⟨same, rfl⟩ := Prod.mk.inj (Option.some.inj made)
    have ledger := ledger_size (κ := κ) (w.observers.size + 1)
    have kept := Mirrors.pinning ledger [.observer w.observers.size] (Scope.resolve_mirrors ledger
      (performer_mirrors ledger commands levels) { store := id, tracker := some w.observers.size }
      path) _ _ _ (by simp) resolved
    refine ⟨_, Array.getElem?_eq_getElem ?_⟩
    rw [← Except.ok.inj same, Array.size_modify]
    exact kept.1

/-- The effect history of an observer is a chain. Whatever is asked of the library after an observer
was made, its effect was started first with the value captured at construction as the old one, then
each time with the value of the start before, never with equal values, and the observer holds the
value of the last start. The same holds at all moments in between: code that is run on the way,
nested to any depth, makes no call at a moment at which it does not hold. -/
theorem effects_chained (commands : κ → Request κ) {levels : Nat} {id : StoreId} {path : String}
    {effect : Effect κ} {w w₀ w' : World κ}
    (made : observe (performer (obeying commands) levels) id path effect w = some (.ok o, w₀))
    (ran : Runs commands w₀ w') :
    ∃ observer, w₀.observers[o]? = some observer ∧
      w'.Chained o (w₀.firings o) observer.value ∧
      ∀ levels (request : Request κ) r w'',
        request.run (performer (obeying commands) levels) w' = some (r, w'') →
        request.run (guarded (World.Chained o (w₀.firings o) observer.value)
          (obeying commands) levels) w' = some (r, w'') := by
  obtain ⟨observer, found⟩ := observe_found made
  have start : w₀.Chained o (w₀.firings o) observer.value :=
    ⟨observer, [], found, (List.append_nil _).symm, rfl, nofun⟩
  have chained := ran.keeps ledger_chained start
  exact ⟨observer, found, chained, fun levels request r w'' answered =>
    (Request.run_guarded ledger_chained commands levels request _ _ _ chained answered).2⟩

/-- An effect that writes its own path again when it hears of one value, asking for an update right
afterwards, and that fails when it hears of another. -/
def waver (new _ : Value) : Program Unit Unit :=
  if new.strictEq (.string "up") then do
    let _ ← Program.ask (.write (.scope { store := 0 }) "level" (.string "down"))
    let _ ← Program.ask (.host ())
  else if new.strictEq (.string "off") then Program.fail .emptyPath
  else pure ()

/-- The one command of the host updates the first observer against the first store. -/
def again (_ : Unit) : Request Unit :=
  .update 0 0

theorem waver_chained : ∃ w₀ w' : World Unit,
    observe (performer (obeying again) 4) 0 "level" (.code waver)
      { stores := #[.ofValue (.object [("level", .string "flat")])] } = some (.ok 0, w₀) ∧
    Runs again w₀ w' ∧
    (w'.firings 0).map (fun f => (f.old.display, f.new.display)) =
      [("flat", "up"), ("up", "down"), ("down", "off")] ∧
    ∃ observer, w₀.observers[0]? = some observer ∧ w'.Chained 0 (w₀.firings 0) observer.value := by
  have told : ((observe (performer (obeying again) 4) 0 "level" (.code waver)
      { stores := #[.ofValue (.object [("level", .string "flat")])] }).bind fun made =>
        ((Request.assign 0 "level" (.string "up")).run (performer (obeying again) 4)
          (made.2.naming [("gauge", 0)])).bind fun first =>
            ((Request.assign 0 "level" (.string "off")).run (performer (obeying again) 4)
              first.2).map fun second => (made.1.toOption, second.1.isOk,
                (second.2.firings 0).map fun f => (f.old.display, f.new.display))) =
      some (some 0, false, [("flat", "up"), ("up", "down"), ("down", "off")]) := by decide +kernel
  obtain ⟨⟨o, w₀⟩, made, told⟩ := Option.bind_eq_some_iff.mp told
  obtain ⟨⟨_, w₁⟩, first, told⟩ := Option.bind_eq_some_iff.mp told
  obtain ⟨⟨_, w₂⟩, second, same⟩ := Option.map_eq_some_iff.mp told
  obtain ⟨number, same⟩ := Prod.mk.inj same
  obtain ⟨-, firings⟩ := Prod.mk.inj same
  cases o with
  | error e => cases number
  | ok o =>
    obtain rfl : o = 0 := Option.some.inj number
    have named : Runs again w₀ (w₀.naming [("gauge", 0)]) := .elsewhere .start ⟨rfl, rfl⟩
    have ran : Runs again w₀ w₂ := (named.request first).request second
    obtain ⟨observer, found, chained, -⟩ := effects_chained again made ran
    exact ⟨w₀, w₂, made, ran, firings, observer, found, chained⟩

end ReactiveView
