import ReactiveView.Proofs.Reaction.Order
import ReactiveView.Proofs.View.Passes

/-! Turns of a bound view: data is set, or somebody types into a bound element. Typing changes
the form value first, so the element is ahead of the data until its listeners have written the
value back. -/
namespace ReactiveView

variable {κ : Type}

open Run

/-- What happens to a view from outside. -/
inductive Turn where
  | set (path : String) (value : Value)
  | input (element : NodeRef) (text : String)

/-- Runs unless the path leads to no cell of the data of a view. -/
def View.backed (v : ViewId) (path : String) (x : Run κ Unit) : Run κ Unit := fun w =>
  if w.backs ((Source.view v).store w) path = true then x w else none

/-- Reacts to an event, as long as the path that is written is backed by a cell. -/
def Listener.hearBacked (perform : Performer κ) (event : Event) : Listener κ → Run κ Unit
  | .writeBack view path =>
    View.backed view path (Listener.hear perform event (.writeBack view path))
  | listener => listener.hear perform event

namespace Turn

def run (perform : Performer κ) (v : ViewId) : Turn → Run κ Unit
  | .set path value => View.set perform v path value
  | .input element text => element.input perform text

/-- Carries out a turn as long as every path that is written is backed by a cell. -/
def runBacked (perform : Performer κ) (v : ViewId) : Turn → Run κ Unit
  | .set path value => View.backed v path (View.set perform v path value)
  | .input element text => do
    Run.setValue element text
    let listeners := (← Run.node element).listenersOf "input"
    Run.pinning [.node element] (listeners.forM (Listener.hearBacked perform ⟨"input", element⟩))

theorem backed_below (v : ViewId) (path : String) (x : Run κ Unit) :
    Below (View.backed v path x) x := by
  intro w r ran
  unfold View.backed at ran
  split at ran
  · exact ran
  · cases ran

/-- What is carried out so is carried out as it is. -/
theorem runBacked_below (perform : Performer κ) (v : ViewId) (turn : Turn) :
    Below (turn.runBacked perform v) (turn.run perform v) := by
  cases turn with
  | set path value => exact backed_below v path _
  | input element text =>
    refine Below.bind (Below.refl _) fun _ => Below.bind (Below.refl _) fun _ =>
      Below.pinning _ (Below.forM (fun listener => ?_) _)
    cases listener with
    | writeBack view path => exact backed_below view path _
    | method view name => exact Below.refl _
    | code run => exact Below.refl _

end Turn

/-- A string that a cell retains is there already. -/
theorem Store.content_of_retains {s : Store (Computed κ)} {c : CellId} {text : String}
    (retains : s.retains c (.string text) = true) : s.content c = .leaf (.string text) := by
  unfold Store.retains at retains
  split at retains
  · rename_i current content
    have equal := (Bool.and_eq_true_iff.mp retains).2
    rw [content]
    cases current <;> simp_all [Value.strictEq]
  · cases retains

namespace Bindings

variable {b : Bindings κ} {perform : Performer κ} {exempt : NodeId → Prop}
  {pending : ObserverId → Prop} {w w' : World κ}
  {s : Store (Computed κ)} {doc : Document (Listener κ)} {n : NodeId} {text : String}

/-- An exempt element needs no exemption once its form value is as the data says. -/
theorem Upheld.settle (sane : b.Sane perform) (field : b.fields n)
    (upheld : b.Upheld (· = n) pending w s doc) (settled : ∀ path, (b.node n).models = [path] →
      ∃ v, s.read path = .ok v ∧ (doc.node n).value = v.propertyText) :
    b.Upheld (fun _ => False) pending w s doc := by
  refine { upheld with
    texts := fun m t bound => .inr ?_
    fields := fun m path bound only => .inr ?_ }
  · refine (upheld.texts m t bound).resolve_left ?_
    rintro rfl
    cases (sane.isText m t bound).1.symm.trans (sane.isField m field).1
  · obtain rfl | current := upheld.fields m path bound only
    · exact .inr (settled path only)
    · exact current

/-- An element that was typed into is ahead of the data. -/
def Typed (b : Bindings κ) (n : NodeId) (text : String) (w : World κ) : Prop :=
  ∃ s doc, b.Upheld (· = n) (fun _ => False) w s doc ∧
    ∀ path, (b.node n).models = [path] → (doc.node n).value = text

/-- The data has caught up with the element. -/
def Heard (b : Bindings κ) (n : NodeId) (text : String) (w : World κ) : Prop :=
  ∃ s doc, b.Upheld (fun _ => False) (fun _ => False) w s doc ∧
    ∀ path, (b.node n).models = [path] → s.read path = .ok (.string text)

theorem Heard.typed (field : b.fields n) (heard : b.Heard n text w) : b.Typed n text w := by
  obtain ⟨s, doc, upheld, read⟩ := heard
  refine ⟨s, doc, { upheld with
    texts := fun m t bound => .inr ((upheld.texts m t bound).resolve_left id)
    fields := fun m path bound only => .inr ((upheld.fields m path bound only).resolve_left id) },
    fun path only => ?_⟩
  obtain never | ⟨_, _, never, _⟩ | ⟨v, found, value⟩ := upheld.fields n path field only
  · exact never.elim
  · exact never.elim
  · obtain rfl := Except.ok.inj ((read path only).symm.trans found)
    exact value

/-- An element with several paths is bound to none of them alone. -/
theorem Typed.heard (sane : b.Sane perform) (field : b.fields n)
    (several : ∀ path, (b.node n).models ≠ [path]) (typed : b.Typed n text w) :
    b.Heard n text w := by
  obtain ⟨s, doc, upheld, -⟩ := typed
  exact ⟨s, doc, upheld.settle sane field fun path only => (several path only).elim,
    fun path only => (several path only).elim⟩

/-- Writing back what was typed lets the data catch up. -/
theorem Typed.assign (sane : b.Sane perform) (field : b.fields n) (typed : b.Typed n text w)
    {path : String} (only : (b.node n).models = [path])
    (backed : w.backs b.made.store path = true)
    (ran : Scope.assign perform { store := b.made.store } path (.string text) w =
      some (.ok (), w')) : b.Heard n text w' := by
  obtain ⟨s, doc, upheld, value⟩ := typed
  have value := value path only
  have isOnly : ∀ other, (b.node n).models = [other] → path = other := fun other same =>
    (List.cons.inj (only.symm.trans same)).1
  obtain ⟨c, found⟩ := World.cellAt?_of_backs upheld.here backed
  have notBlank := Scope.filled_of_assign perform ran
  obtain ⟨retains, rfl⟩ | ⟨-, told⟩ :=
    Scope.assign_eq_ok perform (upheld.plain _) upheld.here found ran
  · have content := Store.content_of_retains retains
    have read : s.read path = .ok (.string text) := by
      rw [Store.read_cellAt? upheld.plain notBlank found]
      simp only [Store.handleOf, content, Store.valueOf, Value.pointer?_empty, Option.getD_some]
    refine ⟨s, doc, upheld.settle sane field fun other same => ?_, fun other same => ?_⟩
    · obtain rfl := isOnly other same
      exact ⟨_, read, value⟩
    · obtain rfl := isOnly other same
      exact read
  · obtain ⟨inside, notRoot⟩ := Store.cellAt?_sound upheld.sound found
    have wrote := Store.overwrites_overwrite inside (.string text) w.observerAlive
    have read := wrote.read_written upheld.plain upheld.sound notBlank found
    have settled := (upheld.overwrite inside notRoot sane
      (show (Value.string text).Exact from trivial)).settle sane field fun other same => by
        obtain rfl := isOnly other same
        exact ⟨_, read, value⟩
    obtain ⟨doc', ended⟩ := settled.notify sane upheld.told told
    refine ⟨_, doc', ended, fun other same => ?_⟩
    obtain rfl := isOnly other same
    exact read

theorem Upheld.backed (upheld : b.Upheld exempt pending w s doc) {path : String} {x : Run κ Unit}
    {r : Except BindingError Unit} (ran : View.backed b.view path x w = some (r, w')) :
    w.backs b.made.store path = true ∧ x w = some (r, w') := by
  have store : (Source.view b.view).store w = b.made.store := by
    simp only [Source.store, upheld.view, Option.getD_some]
  unfold View.backed at ran
  rw [store] at ran
  split at ran
  · exact ⟨‹_›, ran⟩
  · cases ran

theorem Upheld.set (sane : b.Sane perform) (upheld : b.Upheld exempt (fun _ => False) w s doc)
    {path : String} {v : Value} (exact : v.Exact) (backed : w.backs b.made.store path = true)
    (ran : View.set perform b.view path v w = some (.ok (), w')) :
    ∃ s' doc', b.Upheld exempt (fun _ => False) w' s' doc' := by
  unfold View.set at ran
  rw [bind_of_ok (view_run upheld.view)] at ran
  exact upheld.assign sane exact backed ran

theorem Typed.still (typed : b.Typed n text w) (still : w.Still w') : b.Typed n text w' := by
  obtain ⟨s, doc, upheld, value⟩ := typed
  exact ⟨s, doc, upheld.still still, value⟩

theorem Heard.still (heard : b.Heard n text w) (still : w.Still w') : b.Heard n text w' := by
  obtain ⟨s, doc, upheld, read⟩ := heard
  exact ⟨s, doc, upheld.still still, read⟩

/-- Whichever path is written back, no harm is done; and if it is the only one, the data has caught
up. -/
theorem Typed.writeBack (sane : b.Sane perform) (field : b.fields n) (typed : b.Typed n text w)
    {path : String} (ran : Listener.hearBacked perform ⟨"input", ⟨b.document, n⟩⟩
      (.writeBack b.view path) w = some (.ok (), w')) (bound : path ∈ (b.node n).models) :
    b.Heard n text w' := by
  have ⟨s, doc, upheld, value⟩ := typed
  obtain ⟨backed, heard⟩ := upheld.backed ran
  obtain ⟨inner, wrote, rfl⟩ := whileAlive_of_alive upheld.alive heard
  have pinned := upheld.repin ([.view b.view] ++ w.pins)
  rw [bind_of_ok (node_run pinned.there n)] at wrote
  by_cases single : ∃ only, (b.node n).models = [only]
  · obtain ⟨only, single⟩ := single
    obtain rfl : path = only := by simpa [single] using bound
    rw [value path single] at wrote
    unfold View.set at wrote
    rw [bind_of_ok (view_run pinned.view)] at wrote
    have typed : b.Typed n text { w with pins := [.view b.view] ++ w.pins } :=
      typed.still (w.still_pins _)
    exact (typed.assign sane field single backed wrote).still (inner.still_pins w.pins)
  · obtain ⟨s', doc', upheld'⟩ := pinned.set sane
      (show (Value.string (doc.node n).value).Exact from trivial) backed wrote
    have several : ∀ path, (b.node n).models ≠ [path] := fun only same => single ⟨only, same⟩
    have typed' : b.Typed n text { inner with pins := w.pins } :=
      ⟨s', doc', upheld'.repin w.pins, fun path only => (several path only).elim⟩
    exact typed'.heard sane field several

/-- A method that a view does not have cannot be called without failure. -/
theorem Upheld.call_fails (sane : b.Sane perform) (upheld : b.Upheld exempt pending w s doc)
    {name : String} {event : Event} :
    Listener.hear perform event (.method b.view name) w ≠ some (.ok (), w') := by
  intro ran
  obtain ⟨inner, ran, -⟩ := whileAlive_of_alive upheld.alive ran
  have pinned := upheld.repin ([.view b.view] ++ w.pins)
  unfold View.call at ran
  rw [bind_of_ok (view_run pinned.view), sane.methods] at ran
  cases ran

/-- A listener of a bound element keeps the data from falling behind further. -/
theorem Typed.hear (sane : b.Sane perform) (field : b.fields n) (typed : b.Typed n text w)
    {listener : Listener κ} (listens : listener ∈ (b.node n).listenersOf "input")
    (ran : listener.hearBacked perform ⟨"input", ⟨b.document, n⟩⟩ w = some (.ok (), w')) :
    b.Typed n text w' ∧ (b.Heard n text w ∨
      (∃ path ∈ (b.node n).models, listener = .writeBack b.view path) → b.Heard n text w') := by
  by_cases writes : ∃ path ∈ (b.node n).models, listener = .writeBack b.view path
  · obtain ⟨path, bound, rfl⟩ := writes
    have heard := typed.writeBack sane field ran bound
    exact ⟨heard.typed field, fun _ => heard⟩
  · have heard : listener.hear perform ⟨"input", ⟨b.document, n⟩⟩ w = some (.ok (), w') := by
      cases listener with
      | writeBack view path => exact Turn.backed_below view path _ w _ ran
      | method view name => exact ran
      | code run => exact ran
    obtain quiet | bound | ⟨name, rfl⟩ := sane.hears n field listener listens
    · have still := quiet _ w _ w' heard
      exact ⟨typed.still still, fun before => (before.resolve_right writes).still still⟩
    · exact (writes bound).elim
    · obtain ⟨s, doc, upheld, -⟩ := typed
      exact (upheld.call_fails sane heard).elim

theorem Typed.hearAll (sane : b.Sane perform) (field : b.fields n) {listeners : List (Listener κ)}
    (listen : ∀ listener ∈ listeners, listener ∈ (b.node n).listenersOf "input")
    (typed : b.Typed n text w)
    (ran : listeners.forM (Listener.hearBacked perform ⟨"input", ⟨b.document, n⟩⟩) w =
      some (.ok (), w')) :
    b.Typed n text w' ∧ (b.Heard n text w ∨
      (∃ path ∈ (b.node n).models, .writeBack b.view path ∈ listeners) → b.Heard n text w') := by
  induction listeners generalizing w with
  | nil =>
    obtain ⟨-, rfl⟩ := Prod.mk.inj (Option.some.inj ran)
    exact ⟨typed, fun before => before.resolve_right fun ⟨_, _, never⟩ => nomatch never⟩
  | cons listener rest ih =>
    obtain ⟨_, w₁, first, ran⟩ := bind_eq_ok ran
    obtain ⟨typed₁, caught⟩ := typed.hear sane field (listen listener List.mem_cons_self) first
    obtain ⟨typed', caught'⟩ :=
      ih (fun later member => listen later (List.mem_cons_of_mem _ member)) typed₁ ran
    refine ⟨typed', fun before => caught' ?_⟩
    obtain already | ⟨path, bound, member⟩ := before
    · exact .inl (caught (.inl already))
    · rcases List.mem_cons.mp member with same | later
      · exact .inl (caught (.inr ⟨path, bound, same.symm⟩))
      · exact .inr ⟨path, bound, later⟩

/-- After a turn without failure everything is as the data says again. -/
theorem Upheld.input (sane : b.Sane perform) (field : b.fields n)
    (upheld : b.Upheld (fun _ => False) (fun _ => False) w s doc)
    (ran : (Turn.input ⟨b.document, n⟩ text).runBacked perform b.view w = some (.ok (), w')) :
    b.Heard n text w' := by
  have inside := upheld.inside n (sane.targets_field field)
  obtain ⟨forest, value, retains, data, others⟩ := Document.setValue_spec inside text
  have typedInto : b.Upheld (· = n) (fun _ => False) _ s (doc.setValue n text) :=
    upheld.edit (f := fun _ doc => doc.setValue n text) rfl (upheld.formed.sameForest forest)
      (Nat.le_of_eq forest.size.symm) (fun m _ => retains m)
      (fun m t _ => .inr (.inr ⟨id, data m⟩)) fun m path _ _ => by
        by_cases same : m = n
        · exact .inl same
        · exact .inr (.inr ⟨id, by rw [others m same]⟩)
  unfold Turn.runBacked at ran
  obtain ⟨_, w₁, wrote, ran⟩ := bind_eq_ok ran
  obtain ⟨-, rfl⟩ := Prod.mk.inj (Option.some.inj wrote)
  rw [bind_of_ok (node_run typedInto.there n)] at ran
  obtain ⟨inner, heard, rfl⟩ := pinning_eq_some ran
  have same : ((doc.setValue n text).node n).listenersOf "input" =
      (b.node n).listenersOf "input" := by
    simp only [Node.listenersOf, (typedInto.nodes n (sane.targets_field field)).listeners]
  have typed : b.Typed n text _ :=
    ⟨s, _, typedInto.repin ([.node ⟨b.document, n⟩] ++ w.pins), fun _ _ => value⟩
  obtain ⟨-, caught⟩ := typed.hearAll sane field (fun _ member => same ▸ member) heard
  obtain ⟨path, rest, some⟩ := List.exists_cons_of_ne_nil (sane.isField n field).2
  have bound : path ∈ (b.node n).models := by simp [some]
  have written := caught (.inr ⟨path, bound, same ▸ sane.writesBack n field path bound⟩)
  exact written.still (inner.still_pins w.pins)

end Bindings
end ReactiveView
