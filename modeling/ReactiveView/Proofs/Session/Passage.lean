import ReactiveView.Proofs.View.Intact
import ReactiveView.Proofs.View.Mounting
import ReactiveView.Session.Basic

/-! What runs do to what is alive. Views and observers come to life only by being made, and are kept
alive only by names that are given to what was reached already, and by pins on it. Every run of the
library is a passage of such deeds, whatever the user code in it does. -/
namespace ReactiveView

open Session

variable {κ : Type}

namespace World

/-- What a command may come to refer to between two worlds: a view that was made in between or had a
weak name and was alive, and an observer that was made in between and left to no view, or was alive
and belonged to a view that had a name. -/
def Grants (w w' : World κ) : Entity → Prop
  | .view v => v = w.views.size ∧ v < w'.views.size ∨
      w.viewAlive v = true ∧ v ∈ w.names.weakViews.map (·.2)
  | .weakView v => v ∈ w.names.views.map (·.2)
  | .observer o =>
    (o = w.observers.size ∧ o < w'.observers.size ∧
      ∀ (v : ViewId) view', w'.views[v]? = some view' →
      o ∈ view'.observers → ∃ view, w.views[v]? = some view ∧ o ∈ view.observers) ∨
    w.observerAlive o = true ∧ ∃ v ∈ w.names.views.map (·.2), ∃ view, w.views[v]? = some view ∧
      o ∈ view.observers
  | _ => True

inductive Passage : World κ → World κ → Prop
  /-- Anything that does not bear on what is alive, and starts no effect. -/
  | plain {w w' : World κ} (names : w'.names = w.names) (pins : w'.pins = w.pins)
      (views : w'.views = w.views) (observers : w'.observers.size = w.observers.size)
      (journal : w'.journal = w.journal) : Passage w w'
  | trans {w w₁ w₂ : World κ} : Passage w w₁ → Passage w₁ w₂ → Passage w w₂
  | pinned {w w' : World κ} {pins : List Pin} : (∀ pin ∈ pins, w.Reaches pin) →
      Passage { w with pins := pins ++ w.pins } w' → Passage w { w' with pins := w.pins }
  | fired {w : World κ} {o : ObserverId} (new old : Value) : w.observerAlive o = true →
      Passage w { w with journal := ⟨o, new, old⟩ :: w.journal }
  /-- A new observer, pinned while its path is read. -/
  | watched {w w' : World κ} (observer : Observer κ) :
      Passage { w with
        observers := w.observers.push observer
        pins := [.observer w.observers.size] ++ w.pins } w' →
      Passage w { w' with pins := w.pins }
  /-- A new observer that is left to a view after that. -/
  | kept {w w' : World κ} (observer : Observer κ) (v : ViewId) :
      Passage { w with
        observers := w.observers.push observer
        pins := [.observer w.observers.size] ++ w.pins } w' →
      Passage w { w' with
        pins := w.pins
        views := w'.views.modify v fun view =>
          { view with observers := view.observers ++ [w.observers.size] } }
  /-- A new view, pinned while it is bound. -/
  | made {w w' : World κ} (view : View κ) : view.observers = [] →
      Passage { w with
        views := w.views.push view
        pins := [.view w.views.size] ++ w.pins } w' →
      Passage w { w' with pins := w.pins }
  /-- A name is given to what the passage granted. -/
  | named {w w' : World κ} (name : String) (entity : Entity) : w.Grants w' entity → Passage w w' →
      Passage w { w' with names := entity.bind name w'.names }
  | unnamed {w : World κ} {names : Names} : names.views ⊆ w.names.views →
      names.weakViews ⊆ w.names.weakViews → names.observers ⊆ w.names.observers →
      Passage w { w with names }

namespace Passage

variable {w w' : World κ}

theorem refl (w : World κ) : Passage w w :=
  .plain rfl rfl rfl rfl rfl

/-- Everything that was pinned is let go. -/
theorem pins (passage : Passage w w') : w'.pins = w.pins := by
  induction passage with
  | plain _ pins => exact pins
  | trans _ _ first later => exact later.trans first
  | named name entity _ _ ih => exact ih
  | _ => rfl

theorem sizes (passage : Passage w w') :
    w.views.size ≤ w'.views.size ∧ w.observers.size ≤ w'.observers.size := by
  induction passage with
  | plain _ _ views observers => exact ⟨views ▸ Nat.le_refl _, Nat.le_of_eq observers.symm⟩
  | trans _ _ first later => exact ⟨first.1.trans later.1, first.2.trans later.2⟩
  | pinned _ _ ih => exact ih
  | fired new old _ => exact ⟨Nat.le_refl _, Nat.le_refl _⟩
  | watched observer _ ih =>
    simp only [Array.size_push] at ih
    exact ⟨ih.1, Nat.le_of_succ_le ih.2⟩
  | kept observer v _ ih =>
    simp only [Array.size_push, Array.size_modify] at ih ⊢
    exact ⟨ih.1, Nat.le_of_succ_le ih.2⟩
  | made view _ _ ih =>
    simp only [Array.size_push] at ih
    exact ⟨Nat.le_of_succ_le ih.1, ih.2⟩
  | named name entity _ _ ih => exact ih
  | unnamed => exact ⟨Nat.le_refl _, Nat.le_refl _⟩

/-- The observers of a view when one view was left an observer. -/
theorem mem_kept {views : Array (View κ)} {u v : ViewId} {p o : ObserverId} {view' : View κ}
    (found : (views.modify u fun view =>
      { view with observers := view.observers ++ [p] })[v]? = some view')
    (own : o ∈ view'.observers) :
    (∃ view, views[v]? = some view ∧ o ∈ view.observers) ∨ u = v ∧ o = p := by
  simp only [Array.getElem?_modify] at found
  split at found
  · rename_i here
    obtain ⟨view, was, rfl⟩ := Option.map_eq_some_iff.mp found
    obtain own | same := List.mem_append.mp own
    · exact .inl ⟨view, was, own⟩
    · exact .inr ⟨here, List.mem_singleton.mp same⟩
  · exact .inl ⟨view', found, own⟩

/-- The observers of a view when a view without observers was added. -/
theorem mem_made {views : Array (View κ)} {v : ViewId} {o : ObserverId} {view view' : View κ}
    (none : view.observers = []) (found : (views.push view)[v]? = some view')
    (own : o ∈ view'.observers) : views[v]? = some view' := by
  rw [Array.getElem?_push] at found
  split at found
  · cases found
    rw [none] at own
    cases own
  · exact found

/-- Only new observers are left to views. -/
theorem listed_before (passage : Passage w w') {o : ObserverId} (old : o < w.observers.size)
    {v : ViewId} {view' : View κ} (found : w'.views[v]? = some view') (own : o ∈ view'.observers) :
    ∃ view, w.views[v]? = some view ∧ o ∈ view.observers := by
  induction passage generalizing view' with
  | plain _ _ views => exact ⟨view', views ▸ found, own⟩
  | trans first _ ih ih' =>
    obtain ⟨view₁, found₁, own₁⟩ := ih' (Nat.lt_of_lt_of_le old first.sizes.2) found own
    exact ih old found₁ own₁
  | pinned _ _ ih => exact ih old found own
  | fired new old _ => exact ⟨view', found, own⟩
  | watched observer _ ih => exact ih (by simpa using Nat.lt_succ_of_lt old) found own
  | kept observer u _ ih =>
    obtain ⟨view, was, own⟩ | ⟨-, rfl⟩ := mem_kept found own
    · exact ih (by simpa using Nat.lt_succ_of_lt old) was own
    · exact (Nat.lt_irrefl _ old).elim
  | made view none _ ih =>
    obtain ⟨view₀, found₀, own₀⟩ := ih old found own
    exact ⟨view₀, mem_made none found₀ own₀, own₀⟩
  | named name entity _ _ ih => exact ih old found own
  | unnamed => exact ⟨view', found, own⟩

end Passage
end World

open World

namespace Run

variable {α : Type}

theorem composes_passage : Composes (κ := κ) Passage :=
  ⟨.refl, .trans⟩

theorem passage_pure (a : α) : Keeps (κ := κ) Passage (Pure.pure a) :=
  Keeps.pure composes_passage a

theorem passage_ofExcept (r : Except BindingError α) : Keeps (κ := κ) Passage (Run.ofExcept r) :=
  Keeps.ofExcept composes_passage r

theorem passage_bind {β : Type} {x : Run κ α} {f : α → Run κ β} (first : Keeps Passage x)
    (then_ : ∀ a, Keeps Passage (f a)) : Keeps Passage (x >>= f) :=
  Keeps.bind composes_passage first then_

/-- Looking at the world. -/
theorem passage_looking {x : Run κ α} (f : World κ → α) (looks : ∀ w, x w = some (.ok (f w), w)) :
    Keeps Passage x := by
  intro w r w' ran
  obtain ⟨-, rfl⟩ := Prod.mk.inj (Option.some.inj ((looks w).symm.trans ran))
  exact .refl w

/-- A run that needs no more than the world it starts in. -/
theorem passage_of_world {x : World κ → Run κ α}
    (each : ∀ w r w', x w w = some (r, w') → Passage w w') :
    Keeps Passage (do x (← Run.world)) :=
  fun w r w' ran => each w r w' ran

theorem passage_edit (d : DocumentId)
    (f : (NodeId → Bool) → Document (Listener κ) → Document (Listener κ)) :
    Keeps Passage (Run.edit d f) :=
  Keeps.modify fun _ => .plain rfl rfl rfl rfl rfl

theorem passage_setValue (ref : NodeRef) (value : String) :
    Keeps (κ := κ) Passage (Run.setValue ref value) :=
  passage_edit _ fun _ doc => doc.setValue ref.node value

theorem passage_setText (ref : NodeRef) (text : String) :
    Keeps (κ := κ) Passage (Run.setText ref text) :=
  passage_edit _ fun held doc => doc.setTextContent held ref.node text

theorem passage_setHtml (ref : NodeRef) (markup : String) :
    Keeps (κ := κ) Passage (Run.setHtml ref markup) :=
  passage_edit _ fun held doc => doc.setInnerHtml held ref.node markup

theorem passage_setStore (s : StoreId) (store : Store (Computed κ)) :
    Keeps Passage (Run.setStore s store) :=
  Keeps.modify fun _ => .plain rfl rfl rfl rfl rfl

theorem passage_createNode (d : DocumentId) (n : Node (Listener κ)) :
    Keeps Passage (Run.createNode d n) := by
  intro w r w' ran
  obtain ⟨-, rfl⟩ := Prod.mk.inj (Option.some.inj ran)
  exact .plain rfl rfl rfl rfl rfl

theorem passage_createDocument (doc : Document (Listener κ)) :
    Keeps Passage (Run.createDocument doc) := by
  intro w r w' ran
  obtain ⟨-, rfl⟩ := Prod.mk.inj (Option.some.inj ran)
  exact .plain rfl rfl rfl rfl rfl

theorem passage_createStore (store : Store (Computed κ)) :
    Keeps Passage (Run.createStore store) := by
  intro w r w' ran
  obtain ⟨-, rfl⟩ := Prod.mk.inj (Option.some.inj ran)
  exact .plain rfl rfl rfl rfl rfl

theorem passage_setObserved (o : ObserverId) (value : Value) :
    Keeps (κ := κ) Passage (Run.setObserved o value) :=
  Keeps.modify fun _ => .plain rfl rfl rfl Array.size_modify rfl

theorem passage_attempt {x : Run κ α} (inner : Keeps Passage x) :
    Keeps Passage (Run.attempt x) := by
  intro w r w' ran
  obtain ⟨⟨r', _⟩, found, same⟩ := Option.map_eq_some_iff.mp ran
  obtain ⟨-, rfl⟩ := Prod.mk.inj same
  exact inner _ _ _ found

theorem passage_pinning {w w' : World κ} {pins : List Pin} {x : Run κ α} {r : Except BindingError α}
    (reached : ∀ pin ∈ pins, w.Reaches pin)
    (inner : ∀ r w', x { w with pins := pins ++ w.pins } = some (r, w') →
      Passage { w with pins := pins ++ w.pins } w')
    (ran : Run.pinning pins x w = some (r, w')) : Passage w w' := by
  obtain ⟨after, answer, rfl⟩ := pinning_eq_some ran
  exact .pinned reached (inner _ _ answer)

/-- Nodes may always be pinned. -/
theorem passage_pinning_nodes (refs : List NodeRef) {x : Run κ α} (inner : Keeps Passage x) :
    Keeps Passage (Run.pinning (refs.map .node) x) := by
  intro w r w' ran
  refine passage_pinning (fun pin member => ?_) (fun _ _ => inner _ _ _) ran
  obtain ⟨ref, -, rfl⟩ := List.mem_map.mp member
  trivial

theorem passage_whileAlive (v : ViewId) {x : Run κ Unit} (inner : Keeps Passage x) :
    Keeps Passage (Run.whileAlive v x) := by
  intro w r w' ran
  obtain ⟨-, rfl⟩ | ⟨alive, after, answer, rfl⟩ := whileAlive_eq_some ran
  · exact .refl _
  · refine .pinned (fun pin member => ?_) (inner _ _ _ answer)
    obtain rfl := List.mem_singleton.mp member
    exact alive

end Run

open Run

section

variable {perform : Performer κ} (calls : ∀ c, Keeps Passage (perform c))
include calls

theorem passage_program {α : Type} (p : Program κ α) : Keeps Passage (p.run perform) :=
  Keeps.program composes_passage calls p

namespace Scope

omit calls in
theorem passage_register (scope : Scope) (cell : CellId) :
    Keeps (κ := κ) Passage (scope.register cell) := by
  unfold register
  cases scope.tracker with
  | none => exact passage_pure _
  | some o => exact passage_bind (passage_looking _ fun _ => rfl) fun _ => passage_setStore _ _

theorem passage_property? (scope : Scope) (place : Handle) (key : String) :
    Keeps Passage (scope.property? perform place key) := by
  apply passage_bind (passage_looking _ fun _ => rfl)
  intro s
  cases s.find place key with
  | missing => exact passage_pure _
  | inside _ => exact passage_pure _
  | cell c =>
    exact passage_bind (passage_register scope c) fun _ => passage_looking _ fun _ => rfl
  | computed c property =>
    exact passage_bind (passage_register scope c) fun _ =>
      passage_bind (passage_program calls _) fun _ => passage_pure _

theorem passage_walk (scope : Scope) (path : String) (keys : List String) (place : Handle) :
    Keeps Passage (scope.walk perform path keys place) := by
  induction keys generalizing place with
  | nil => exact passage_pure _
  | cons key rest ih =>
    apply passage_bind (passage_property? calls scope place key)
    intro next
    cases next with
    | none => exact passage_ofExcept _
    | some next => exact ih next

theorem passage_parentOf (scope : Scope) (path : String) :
    Keeps Passage (scope.parentOf perform path) :=
  passage_bind (passage_ofExcept _) fun _ => passage_bind (passage_looking _ fun _ => rfl) fun _ =>
    passage_bind (passage_walk calls scope path _ _) fun _ => passage_pure _

theorem passage_resolve (scope : Scope) (path : String) :
    Keeps Passage (scope.resolve perform path) := by
  apply passage_bind (passage_parentOf calls scope path)
  intro way
  apply passage_bind (passage_property? calls scope way.1 way.2)
  intro found
  cases found with
  | some place => exact passage_looking _ fun _ => rfl
  | none =>
    apply passage_bind (passage_looking _ fun _ => rfl)
    intro s
    split
    · exact passage_ofExcept _
    · exact passage_pure _

end Scope

theorem passage_renderFrom (store : StoreId) (template : List Piece) :
    Keeps Passage (renderFrom perform store template) := by
  refine passage_bind (Keeps.mapM composes_passage fun piece _ => ?_) fun _ => passage_pure _
  cases piece with
  | literal c => exact passage_pure _
  | slot path => exact passage_bind (Scope.passage_resolve calls _ path) fun _ => passage_pure _

theorem Effect.passage_fire (effect : Effect κ) (new old : Value) :
    Keeps Passage (effect.fire perform new old) := by
  cases effect with
  | formValue target => exact passage_setValue target _
  | html target => exact passage_setHtml target _
  | text target => exact passage_setText target _
  | template view target pieces =>
    exact passage_whileAlive view <| passage_bind (passage_looking _ fun _ => rfl) fun _ =>
      passage_bind (passage_renderFrom calls _ pieces) fun _ => passage_setText target _
  | code run => exact passage_program calls _
  | viewCode view run => exact passage_whileAlive view (passage_program calls _)

/-- Only the effects of observers that are alive are started. -/
theorem passage_updateObserver {store : StoreId} {o : ObserverId} {w w' : World κ}
    {r : Except BindingError Unit} (pinned : .observer o ∈ w.pins)
    (ran : updateObserver perform store o w = some (r, w')) : Passage w w' := by
  have looked : Keeps (κ := κ) Passage (Run.observer o) := passage_looking _ fun _ => rfl
  obtain ⟨e, failed, -⟩ | ⟨first, w₁, found, ran⟩ := bind_eq_some ran
  · exact looked _ _ _ failed
  refine .trans (looked _ _ _ found) ?_
  have pinned₁ : .observer o ∈ w₁.pins := (looked _ _ _ found).pins ▸ pinned
  obtain ⟨e, failed, -⟩ | ⟨new, w₂, read, ran⟩ := bind_eq_some ran
  · exact Scope.passage_resolve calls _ _ _ _ _ failed
  refine .trans (Scope.passage_resolve calls _ _ _ _ _ read) ?_
  have pinned₂ : .observer o ∈ w₂.pins :=
    (Scope.passage_resolve calls _ _ _ _ _ read).pins ▸ pinned₁
  obtain ⟨observer, found, -⟩ := observer_run o w₂
  rw [bind_of_ok found] at ran
  split at ran
  · exact passage_pure _ _ _ _ ran
  · refine .trans (passage_setObserved o new _ _ _ rfl) (.trans (.fired new observer.value ?_)
      (Effect.passage_fire calls observer.effect new observer.value _ _ _ ran))
    exact observerAlive_iff.mpr (.inl (by simp [World.roots, pinned₂]))

theorem passage_updateAll {store : StoreId} {observers : List ObserverId} {w w' : World κ}
    {r : Except BindingError Unit} (pinned : ∀ o ∈ observers, .observer o ∈ w.pins)
    (ran : observers.forM (updateObserver perform store) w = some (r, w')) : Passage w w' := by
  induction observers generalizing w with
  | nil => exact passage_pure _ _ _ _ ran
  | cons o rest ih =>
    have here := pinned o List.mem_cons_self
    obtain ⟨e, failed, -⟩ | ⟨_, w₁, done, ran⟩ := bind_eq_some ran
    · exact passage_updateObserver calls here failed
    · have first := passage_updateObserver calls here done
      refine first.trans (ih (fun o member => ?_) ran)
      exact first.pins ▸ pinned o (List.mem_cons_of_mem _ member)

/-- The observers that are told of a write are alive. -/
theorem passage_tell (store : StoreId) (cell : CellId) :
    Keeps Passage (do notify perform store (← subscribers store cell)) := by
  intro w r w' ran
  obtain ⟨e, failed, -⟩ | ⟨observers, w₁, listed, ran⟩ := bind_eq_some ran
  · cases failed
  obtain ⟨same, rfl⟩ := Prod.mk.inj (Option.some.inj listed)
  cases same
  refine .trans (passage_setStore store _ w _ _ rfl) (passage_pinning (fun pin member => ?_)
    (fun r w' ran => passage_updateAll calls (fun o member => ?_) ran) ran)
  · obtain ⟨o, listed, rfl⟩ := List.mem_map.mp member
    have alive : w.observerAlive o = true := (List.mem_filter.mp listed).2
    exact alive
  · exact List.mem_append_left _ (List.mem_map_of_mem member)

namespace Scope

theorem passage_set (scope : Scope) (place : Handle) (key : String) (value : Value) :
    Keeps Passage (scope.set perform place key value) := by
  apply passage_bind (passage_looking _ fun _ => rfl)
  intro s
  cases s.write place key value with
  | mk written s =>
    apply passage_bind (passage_setStore _ _)
    intro _
    cases written with
    | done outcome => exact passage_pure _
    | computed property =>
      cases setter : property.setter with
      | none => simp only [setter]; exact passage_pure _
      | some code =>
        simp only [setter]
        exact passage_bind (passage_program calls _) fun _ => passage_pure _
    | cell id =>
      have told := passage_bind (passage_tell calls scope.store id) fun _ =>
        passage_pure Outcome.changed
      rwa [bind_assoc] at told

theorem passage_assign (scope : Scope) (path : String) (value : Value) :
    Keeps Passage (scope.assign perform path value) := by
  refine passage_bind (passage_parentOf calls _ path) fun way =>
    passage_bind (passage_set calls scope way.1 way.2 value) fun outcome => ?_
  cases outcome <;> exact passage_ofExcept _

end Scope

/-- An observer that is made has the next number, and is pinned while its path is read. -/
theorem observe_passage {store : StoreId} {path : String} {effect : Effect κ} {w w' : World κ}
    {r : Except BindingError ObserverId}
    (ran : observe perform store path effect w = some (r, w')) :
    (w' = w ∧ ∀ o, r ≠ .ok o) ∨ ∃ observer inner,
      Passage { w with
        observers := w.observers.push observer
        pins := [.observer w.observers.size] ++ w.pins } inner ∧
      w' = { inner with pins := w.pins } ∧ ∀ o, r = .ok o → o = w.observers.size := by
  unfold observe at ran
  split at ran
  · obtain ⟨rfl, rfl⟩ := Prod.mk.inj (Option.some.inj ran)
    exact .inl ⟨rfl, nofun⟩
  · obtain ⟨e, failed, rfl⟩ | ⟨initial, w₁, read, ran⟩ := bind_eq_some (x := Run.pinning _ _)
      (w := { w with observers := w.observers.push { path, effect } }) ran
    · obtain ⟨inner, answer, rfl⟩ := pinning_eq_some failed
      exact .inr ⟨_, inner, Scope.passage_resolve calls _ _ _ _ _ answer, rfl, nofun⟩
    · obtain ⟨inner, answer, rfl⟩ := pinning_eq_some read
      obtain ⟨rfl, rfl⟩ := Prod.mk.inj (Option.some.inj ran)
      refine .inr ⟨_, _, (Scope.passage_resolve calls _ _ _ _ _ answer).trans
        (passage_setObserved w.observers.size initial _ _ _ rfl), rfl, fun o same => ?_⟩
      exact (Except.ok.inj same).symm

theorem passage_observe {store : StoreId} {path : String} {effect : Effect κ} {w w' : World κ}
    {r : Except BindingError ObserverId}
    (ran : observe perform store path effect w = some (r, w')) :
    Passage w w' ∧ ∀ o, r = .ok o → w.Grants w' (.observer o) := by
  obtain ⟨rfl, failed⟩ | ⟨observer, inner, passage, rfl, numbered⟩ := observe_passage calls ran
  · exact ⟨.refl w', fun o same => (failed o same).elim⟩
  · refine ⟨.watched observer passage, fun o same => .inl ?_⟩
    obtain rfl := numbered o same
    have grown := passage.sizes.2
    rw [Array.size_push] at grown
    refine ⟨rfl, grown, fun v view' found own => ?_⟩
    exact passage.listed_before (by simp) found own

namespace View

theorem passage_get (v : ViewId) (path : String) : Keeps Passage (View.get perform v path) :=
  passage_bind (passage_looking _ fun _ => rfl) fun _ => Scope.passage_resolve calls _ path

theorem passage_write (v : ViewId) (path : String) (value : Value) :
    Keeps Passage (View.set perform v path value) :=
  passage_bind (passage_looking _ fun _ => rfl) fun _ => Scope.passage_assign calls _ path value

theorem passage_call (v : ViewId) (method : String) (event : Event) :
    Keeps Passage (View.call perform v method event) := by
  apply passage_bind (passage_looking _ fun _ => rfl)
  intro view
  cases view.methods.lookup method with
  | none => exact passage_ofExcept _
  | some code => exact passage_program calls _

theorem passage_observe (v : ViewId) (path : String) (effect : Effect κ) :
    Keeps Passage (View.observe perform v path effect) := by
  intro w r w' ran
  obtain ⟨e, failed, -⟩ | ⟨view, w₁, found, ran⟩ := bind_eq_some ran
  · cases failed
  obtain ⟨-, rfl⟩ := Prod.mk.inj (Option.some.inj found)
  obtain ⟨e, failed, -⟩ | ⟨o, w₁, observed, ran⟩ := bind_eq_some ran
  · exact (ReactiveView.passage_observe calls failed).1
  · obtain ⟨-, failed⟩ | ⟨observer, inner, passage, rfl, numbered⟩ := observe_passage calls observed
    · exact (failed o rfl).elim
    · obtain rfl := numbered o rfl
      obtain ⟨-, rfl⟩ := Prod.mk.inj (Option.some.inj ran)
      have kept := Passage.kept observer v passage
      exact kept

end View

theorem Listener.passage_hear (event : Event) (listener : Listener κ) :
    Keeps Passage (listener.hear perform event) := by
  cases listener with
  | writeBack view path =>
    exact passage_whileAlive view <| passage_bind (passage_looking _ fun _ => rfl) fun _ =>
      View.passage_write calls view path _
  | method view name => exact passage_whileAlive view (View.passage_call calls view name event)
  | code run => exact passage_program calls _

namespace NodeRef

omit calls in
theorem passage_listen (ref : NodeRef) (event : String) (listener : Listener κ) :
    Keeps Passage (ref.listen event listener) :=
  passage_edit _ fun _ doc => doc.update ref.node fun n =>
    { n with listeners := n.listeners ++ [(event, listener)] }

theorem passage_dispatch (ref : NodeRef) (event : String) :
    Keeps Passage (ref.dispatch perform event) := by
  apply passage_bind (passage_looking _ fun _ => rfl)
  intro node
  refine passage_pinning_nodes [ref] (Keeps.forM composes_passage fun listener _ => ?_)
  exact Listener.passage_hear calls ⟨event, ref⟩ listener

theorem passage_input (ref : NodeRef) (value : String) :
    Keeps Passage (ref.input perform value) :=
  passage_bind (passage_setValue ref value) fun _ => passage_dispatch calls ref "input"

end NodeRef

namespace Binding

theorem passage_bindTo (v : ViewId) (node : NodeRef) (directive : Directive) :
    Keeps Passage (Binding.bind perform v node directive) := by
  have observer : ∀ o, Keeps (κ := κ) Passage (Run.observer o) := fun _ =>
    passage_looking _ fun _ => rfl
  cases directive with
  | model path =>
    exact passage_bind (View.passage_observe calls v path _) fun o =>
      passage_bind (observer o) fun _ => passage_bind (passage_setValue node _) fun _ =>
        NodeRef.passage_listen node _ _
  | html path =>
    exact passage_bind (View.passage_observe calls v path _) fun o =>
      passage_bind (observer o) fun _ => passage_setHtml node _
  | text path =>
    exact passage_bind (View.passage_observe calls v path _) fun o =>
      passage_bind (observer o) fun _ => passage_setText node _
  | on event method => exact NodeRef.passage_listen node _ _

theorem passage_template (v : ViewId) (node : NodeRef) (pieces : List Piece) :
    Keeps Passage (Binding.template perform v node pieces) := by
  refine passage_bind (Keeps.forM composes_passage fun path _ => ?_) fun _ =>
    passage_bind (passage_looking _ fun _ => rfl) fun _ =>
      passage_bind (passage_renderFrom calls _ pieces) fun _ => passage_setText node _
  exact passage_bind (View.passage_observe calls v path _) fun _ => passage_pure _

theorem passage_element (v : ViewId) (node : NodeRef) :
    Keeps Passage (Binding.element perform v node) := by
  refine passage_bind (passage_looking _ fun _ => rfl) fun n =>
    Keeps.forM composes_passage fun entry _ => ?_
  dsimp only
  split
  · exact passage_bindTo calls v node _
  · exact passage_pure _

end Binding

namespace View

omit calls in
theorem passage_visitAll {d : DocumentId} {visit : NodeId → Run κ Unit}
    (each : ∀ id, Keeps Passage (visit id)) (ids : List NodeId) :
    Keeps Passage (visitAll d visit ids) := by
  induction ids with
  | nil => exact passage_pure _
  | cons id rest ih =>
    refine passage_bind ?_ fun _ => ih
    have pinned := passage_pinning_nodes ((id :: rest).map fun id => ⟨d, id⟩) (each id)
    rwa [List.map_map] at pinned

theorem passage_bindBelow (v : ViewId) (d : DocumentId) (levels : Nat) (parent : NodeId) :
    Keeps Passage (bindBelow perform v d levels parent) := by
  induction levels generalizing parent with
  | zero => exact Keeps.exhausted
  | succ levels ih =>
    refine passage_bind (passage_looking _ fun _ => rfl) fun node =>
      passage_visitAll (fun id => ?_) _
    apply passage_bind (passage_looking _ fun _ => rfl)
    intro child
    cases child.kind with
    | element => exact passage_bind (Binding.passage_element calls v _) fun _ => ih id
    | text =>
      dsimp only
      split
      · exact Binding.passage_template calls v _ _
      · exact passage_pure _
    | comment => exact passage_pure _
    | fragment => exact passage_pure _

theorem passage_compile (levels : Nat) (v : ViewId) : Keeps Passage (compile perform levels v) := by
  apply passage_bind (passage_looking _ fun _ => rfl)
  intro view
  cases view.mount with
  | none => exact passage_pure _
  | some target =>
    refine passage_bind (passage_createNode _ _) fun fragment =>
      passage_pinning_nodes [fragment] ?_
    exact passage_bind (passage_looking _ fun _ => rfl) fun _ =>
      passage_bind (passage_edit _ _) fun _ =>
      passage_bind (passage_attempt (passage_bindBelow calls v _ levels _)) fun _ =>
        passage_bind (passage_edit _ _) fun _ => passage_ofExcept _

/-- A view that is made has the next number. -/
theorem passage_create {levels : Nat} {options : ViewOptions κ} {w w' : World κ}
    {r : Except BindingError ViewId} (ran : create perform levels options w = some (r, w')) :
    Passage w w' ∧ ∀ v, r = .ok v → w.Grants w' (.view v) := by
  obtain ⟨mount, inner, answer, -, -, rfl, rfl, compiled⟩ := create_eq_some ran
  let filled : World κ := { w with stores := w.stores.push options.cells }
  have stored : Passage w filled := .plain rfl rfl rfl rfl rfl
  have passage := passage_compile calls _ _ _ _ _ compiled
  refine ⟨stored.trans (.made _ rfl passage), fun v same => ?_⟩
  have grown := passage.sizes.1
  rw [Array.size_push] at grown
  cases answer with
  | error e => cases same
  | ok u =>
    obtain rfl := Except.ok.inj same
    exact .inl ⟨rfl, grown⟩

end View

theorem Call.passage_carryOut {host : κ → Run κ Unit} (commands : ∀ k, Keeps Passage (host k))
    (c : Call κ) : Keeps Passage (c.carryOut host perform) := by
  cases c with
  | read source path =>
    cases source with
    | scope s => exact Scope.passage_resolve calls s path
    | view v => exact View.passage_get calls v path
  | write source path value =>
    cases source with
    | scope s =>
      exact passage_bind (Scope.passage_assign calls s path value) fun _ => passage_pure _
    | view v => exact passage_bind (View.passage_write calls v path value) fun _ => passage_pure _
  | formValue ref => exact passage_looking _ fun _ => rfl
  | invoke view method event =>
    exact passage_bind (View.passage_call calls view method event) fun _ => passage_pure _
  | log value =>
    exact passage_bind (Keeps.modify fun _ => .plain rfl rfl rfl rfl rfl) fun _ => passage_pure _
  | host command => exact passage_bind (commands command) fun _ => passage_pure _

omit calls in
/-- Calls of user code, nested to any depth. -/
theorem passage_performer (host : Nat → Performer κ → κ → Run κ Unit)
    (commands : ∀ levels perform, (∀ c, Keeps Passage (perform c)) →
      ∀ command, Keeps Passage (host levels perform command)) (levels : Nat) (c : Call κ) :
    Keeps Passage (performer host levels c) := by
  induction levels generalizing c with
  | zero => exact Keeps.exhausted
  | succ levels ih => exact Call.passage_carryOut ih (commands levels _ ih) c

end
end ReactiveView
