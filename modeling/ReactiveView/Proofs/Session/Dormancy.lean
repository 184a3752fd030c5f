import ReactiveView.Proofs.Reaction.History
import ReactiveView.Proofs.Session.Privacy

/-! What is dead stays dead. Registries, listeners and effects mention views and observers by number
only, and nothing that a passage grants leads back from a number to what is dead. So the effects of
dead observers are never started again, and listeners of dead views do nothing. -/
namespace ReactiveView

open Session Run

variable {κ : Type}

namespace World

variable {w w' : World κ} {v : ViewId} {o : ObserverId}

/-- Certain views and observers are there, and nothing refers to them but each other. -/
structure Dormant (gone : ViewId → Prop) (silent : ObserverId → Prop) (w : World κ) : Prop where
  views : ∀ v, gone v → v < w.views.size ∧ v ∉ w.names.views.map (·.2) ∧ .view v ∉ w.pins
  observers : ∀ o, silent o →
    o < w.observers.size ∧ o ∉ w.names.observers.map (·.2) ∧ .observer o ∉ w.pins
  listed : ∀ o, silent o → ∀ (v : ViewId) view, w.views[v]? = some view → o ∈ view.observers →
    gone v

/-- All that is dead is dormant. -/
theorem dormant_of_dead (w : World κ) :
    w.Dormant (fun v => v < w.views.size ∧ w.viewAlive v = false)
      fun o => o < w.observers.size ∧ w.observerAlive o = false := by
  refine ⟨fun v ⟨inside, dead⟩ => ?_, fun o ⟨inside, dead⟩ => ?_,
    fun o ⟨_, dead⟩ v view found own => ?_⟩
  · have unreached := mt viewAlive_iff.mpr (Bool.eq_false_iff.mp dead)
    exact ⟨inside, not_or.mp unreached⟩
  · have unreached := mt observerAlive_iff_named.mpr (Bool.eq_false_iff.mp dead)
    exact ⟨inside, fun named => unreached (.inl named), fun pinned =>
      unreached (.inr (.inl pinned))⟩
  · refine ⟨(Array.getElem?_eq_some_iff.mp found).1, Bool.eq_false_iff.mpr fun alive => ?_⟩
    exact Bool.false_ne_true (dead.symm.trans (observerAlive_of_view found alive own))

namespace Dormant

variable {gone : ViewId → Prop} {silent : ObserverId → Prop}

section

variable (dormant : w.Dormant gone silent)
include dormant

theorem viewAlive (member : gone v) : w.viewAlive v = false := by
  obtain ⟨-, unnamed, unpinned⟩ := dormant.views v member
  exact Bool.eq_false_iff.mpr fun alive => (viewAlive_iff.mp alive).elim unnamed unpinned

theorem observerAlive (member : silent o) : w.observerAlive o = false := by
  obtain ⟨-, unnamed, unpinned⟩ := dormant.observers o member
  apply Bool.eq_false_iff.mpr
  intro alive
  obtain named | pinned | ⟨v, view, alive, found, own⟩ := observerAlive_iff_named.mp alive
  · exact unnamed named
  · exact unpinned pinned
  · have dead := dormant.viewAlive (dormant.listed o member v view found own)
    exact Bool.false_ne_true (dead.symm.trans alive)

/-- Nothing else refers to what is dormant as long as names and pins do not. -/
theorem reaching {names : Names} {pins : List Pin}
    (namedViews : ∀ v, gone v → v ∈ names.views.map (·.2) → v ∈ w.names.views.map (·.2))
    (namedObservers : ∀ o, silent o → o ∈ names.observers.map (·.2) →
      o ∈ w.names.observers.map (·.2))
    (pinnedViews : ∀ v, gone v → .view v ∈ pins → .view v ∈ w.pins)
    (pinnedObservers : ∀ o, silent o → .observer o ∈ pins → .observer o ∈ w.pins) :
    ({ w with names, pins } : World κ).Dormant gone silent := by
  refine ⟨fun v member => ?_, fun o member => ?_, dormant.listed⟩
  · obtain ⟨inside, unnamed, unpinned⟩ := dormant.views v member
    exact ⟨inside, mt (namedViews v member) unnamed, mt (pinnedViews v member) unpinned⟩
  · obtain ⟨inside, unnamed, unpinned⟩ := dormant.observers o member
    exact ⟨inside, mt (namedObservers o member) unnamed, mt (pinnedObservers o member) unpinned⟩

/-- Code pins nothing that is dormant. -/
theorem pinning {pins : List Pin} (reached : ∀ pin ∈ pins, w.Reaches pin) :
    ({ w with pins := pins ++ w.pins } : World κ).Dormant gone silent := by
  refine dormant.reaching (fun _ _ => id) (fun _ _ => id) (fun v member pin => ?_)
    fun o member pin => ?_
  · obtain pin | pin := List.mem_append.mp pin
    · exact (Bool.false_ne_true ((dormant.viewAlive member).symm.trans (reached _ pin))).elim
    · exact pin
  · obtain pin | pin := List.mem_append.mp pin
    · exact (Bool.false_ne_true ((dormant.observerAlive member).symm.trans (reached _ pin))).elim
    · exact pin

theorem unpinning {more pins : List Pin} (pinned : w.pins = more ++ pins) :
    ({ w with pins } : World κ).Dormant gone silent := by
  have fewer : ∀ pin ∈ pins, pin ∈ w.pins := fun pin member =>
    pinned ▸ List.mem_append_right more member
  exact dormant.reaching (fun _ _ => id) (fun _ _ => id) (fun _ _ => fewer _) fun _ _ => fewer _

/-- A new observer is none of them. -/
theorem watching (observer : Observer κ) :
    ({ w with
      observers := w.observers.push observer
      pins := [.observer w.observers.size] ++ w.pins } : World κ).Dormant gone silent := by
  refine ⟨fun v member => ?_, fun o member => ?_, dormant.listed⟩
  · obtain ⟨inside, unnamed, unpinned⟩ := dormant.views v member
    refine ⟨inside, unnamed, fun pin => unpinned ?_⟩
    exact (List.mem_cons.mp pin).resolve_left nofun
  · obtain ⟨inside, unnamed, unpinned⟩ := dormant.observers o member
    refine ⟨by simpa using Nat.lt_succ_of_lt inside, unnamed, fun pin => unpinned ?_⟩
    refine (List.mem_cons.mp pin).resolve_left ?_
    rintro ⟨⟩
    exact Nat.lt_irrefl _ inside

/-- Nor is a new view, which has no observers yet. -/
theorem making (view : View κ) (none : view.observers = []) :
    ({ w with
      views := w.views.push view
      pins := [.view w.views.size] ++ w.pins } : World κ).Dormant gone silent := by
  refine ⟨fun v member => ?_, fun o member => ?_, fun o member v view' found own => ?_⟩
  · obtain ⟨inside, unnamed, unpinned⟩ := dormant.views v member
    refine ⟨by simpa using Nat.lt_succ_of_lt inside, unnamed, fun pin => unpinned ?_⟩
    refine (List.mem_cons.mp pin).resolve_left ?_
    rintro ⟨⟩
    exact Nat.lt_irrefl _ inside
  · obtain ⟨inside, unnamed, unpinned⟩ := dormant.observers o member
    exact ⟨inside, unnamed, fun pin => unpinned ((List.mem_cons.mp pin).resolve_left nofun)⟩
  · exact dormant.listed o member v view' (Passage.mem_made none found own) own

theorem keeping (other : ¬ silent o) (v : ViewId) :
    ({ w with views := w.views.modify v fun view =>
      { view with observers := view.observers ++ [o] } } : World κ).Dormant gone silent := by
  refine ⟨by simpa using dormant.views, dormant.observers, fun p member u view' found own => ?_⟩
  obtain ⟨view, was, own⟩ | ⟨-, rfl⟩ := Passage.mem_kept found own
  · exact dormant.listed p member u view was own
  · exact (other member).elim

end

/-- What is granted is not dormant. -/
theorem naming (dormant : w.Dormant gone silent) (dormant' : w'.Dormant gone silent)
    (name : String) {entity : Entity} (granted : w.Grants w' entity) :
    ({ w' with names := entity.bind name w'.names } : World κ).Dormant gone silent := by
  refine dormant'.reaching (fun v member named => ?_) (fun o member named => ?_) (fun _ _ => id)
    fun _ _ => id
  · refine (views_bind named).resolve_left ?_
    rintro rfl
    obtain ⟨rfl, -⟩ | ⟨alive, -⟩ := granted
    · exact Nat.lt_irrefl _ (dormant.views _ member).1
    · exact Bool.false_ne_true ((dormant.viewAlive member).symm.trans alive)
  · refine (observers_bind named).resolve_left ?_
    rintro rfl
    obtain ⟨rfl, -⟩ | ⟨alive, -⟩ := granted
    · exact Nat.lt_irrefl _ (dormant.observers _ member).1
    · exact Bool.false_ne_true ((dormant.observerAlive member).symm.trans alive)

/-- No passage wakes what is dormant, or starts an effect of it. -/
theorem passage (dormant : w.Dormant gone silent) (passage : Passage w w') :
    w'.Dormant gone silent ∧ ∀ o, silent o → w'.firings o = w.firings o := by
  induction passage with
  | plain names pins same size journal =>
    refine ⟨⟨?_, ?_, ?_⟩, fun o _ => by rw [World.firings, World.firings, journal]⟩
    · simpa only [names, pins, same] using dormant.views
    · simpa only [names, pins, size] using dormant.observers
    · simpa only [same] using dormant.listed
  | trans _ _ first later =>
    obtain ⟨between, fired⟩ := first dormant
    obtain ⟨after, fired'⟩ := later between
    exact ⟨after, fun o member => (fired' o member).trans (fired o member)⟩
  | pinned reached inner ih =>
    obtain ⟨after, fired⟩ := ih (dormant.pinning reached)
    exact ⟨after.unpinning inner.pins, fired⟩
  | @fired _ p new old alive =>
    refine ⟨⟨dormant.views, dormant.observers, dormant.listed⟩, fun o member => ?_⟩
    have other : ¬ p = o := by
      rintro rfl
      exact Bool.false_ne_true ((dormant.observerAlive member).symm.trans alive)
    simp [World.firings, other]
  | watched observer inner ih =>
    obtain ⟨after, fired⟩ := ih (dormant.watching observer)
    exact ⟨after.unpinning inner.pins, fired⟩
  | kept observer v inner ih =>
    obtain ⟨after, fired⟩ := ih (dormant.watching observer)
    have fresh : ¬ silent _ := fun member => Nat.lt_irrefl _ (dormant.observers _ member).1
    exact ⟨(after.unpinning inner.pins).keeping fresh v, fired⟩
  | made view none inner ih =>
    obtain ⟨after, fired⟩ := ih (dormant.making view none)
    exact ⟨after.unpinning inner.pins, fired⟩
  | named name entity granted _ ih =>
    obtain ⟨after, fired⟩ := ih dormant
    exact ⟨dormant.naming after name granted, fired⟩
  | unnamed fewerViews _ fewerObservers =>
    refine ⟨dormant.reaching (fun v _ named => ?_) (fun o _ named => ?_) (fun _ _ => id)
      fun _ _ => id, fun _ _ => rfl⟩
    · exact List.map_subset _ fewerViews named
    · exact List.map_subset _ fewerObservers named

end Dormant
end World

open World

/-- The view that a listener works for. -/
def Listener.view? : Listener κ → Option ViewId
  | .writeBack v _ | .method v _ => some v
  | .code _ => none

section Hearing

variable {perform : Performer κ} {w : World κ} {v : ViewId}

/-- A listener of a dead view does nothing, and that without an error. -/
theorem Listener.hear_dead {listener : Listener κ} (works : listener.view? = some v)
    (dead : w.viewAlive v = false) (event : Event) :
    listener.hear perform event w = some (.ok (), w) := by
  have idle : ∀ x : Run κ Unit, Run.whileAlive v x w = some (.ok (), w) := by
    intro x
    unfold Run.whileAlive
    rw [bind_of_ok (show Run.world w = some (.ok w, w) from rfl), if_neg (by simp [dead])]
    rfl
  cases listener with
  | writeBack u path =>
    obtain rfl := Option.some.inj works
    exact idle _
  | method u name =>
    obtain rfl := Option.some.inj works
    exact idle _
  | code run => cases works

variable {gone : ViewId → Prop} {silent : ObserverId → Prop}
  (calls : ∀ c, Keeps Passage (perform c))
include calls

theorem hearAll_spares (member : gone v) (event : Event) (listeners : List (Listener κ))
    (dormant : w.Dormant gone silent) :
    listeners.forM (Listener.hear perform event) w =
      (listeners.filter (·.view? != some v)).forM (Listener.hear perform event) w := by
  induction listeners generalizing w with
  | nil => rfl
  | cons listener rest ih =>
    by_cases works : listener.view? = some v
    · rw [List.filter_cons_of_neg (by simp [works])]
      exact (bind_of_ok (listener.hear_dead works (dormant.viewAlive member) event) _).trans
        (ih dormant)
    · rw [List.filter_cons_of_pos (by simpa using works)]
      cases heard : listener.hear perform event w with
      | none => exact (bind_of_none heard _).trans (bind_of_none heard _).symm
      | some answer =>
        obtain ⟨result, w₁⟩ := answer
        cases result with
        | error e => exact (bind_of_error heard _).trans (bind_of_error heard _).symm
        | ok u =>
          have between :=
            (dormant.passage (Listener.passage_hear calls event listener _ _ _ heard)).1
          refine (bind_of_ok heard _).trans ((ih between).trans ?_)
          exact (bind_of_ok heard fun _ => (rest.filter (·.view? != some v)).forM
            (Listener.hear perform event)).symm

/-- An event takes the course that it would take without the listeners of the dead view. -/
theorem NodeRef.dispatch_spares (member : gone v) (dormant : w.Dormant gone silent) (ref : NodeRef)
    (event : String) : ref.dispatch perform event w =
      Run.pinning [.node ref]
        (((((w.documents[ref.document]?.getD .empty).node ref.node).listenersOf
        event).filter (·.view? != some v)).forM (Listener.hear perform ⟨event, ref⟩)) w := by
  unfold NodeRef.dispatch
  rw [bind_of_ok (show Run.node ref w = some (.ok _, w) from rfl)]
  have reached : ∀ pin ∈ [Pin.node ref], w.Reaches pin := by
    intro pin single
    obtain rfl := List.mem_singleton.mp single
    trivial
  have pinned := dormant.pinning reached
  simp only [Run.pinning]
  rw [hearAll_spares calls member ⟨event, ref⟩ _ pinned]

end Hearing

namespace Session

/-- The world after steps of a session. -/
def after (w : World Step) (steps : List Step) : World Step :=
  steps.foldl (fun w step => (step.answer w).2) w

theorem passage_after (w : World Step) (steps : List Step) : Passage w (after w steps) := by
  induction steps generalizing w with
  | nil => exact .refl w
  | cons step rest ih => exact (Step.passage_answer w step).trans (ih _)

theorem passage_calls (levels : Nat) (c : Call Step) :
    Keeps Passage (performer Step.host levels c) :=
  passage_performer Step.host (fun levels _ calls step =>
    Step.passage_host levels calls step) levels c

end Session

/-- A view that cannot be bound is dead at once, with all observers that it had by then. And
whatever a session does after a view and its observers have died: none of the effects of these
observers is started again, they are dependents of no path, each listener that the view left
behind does nothing when it hears an event, and an event takes the course that it would take
without those listeners. -/
theorem dead_views_inert {w : World Step} (numbered : w.Numbered) :
    (∀ depth levels options e w',
      View.create (performer Step.host depth) levels options w = some (.error e, w') →
        w'.Gone w.views.size) ∧
    ∀ (v : ViewId) view, w.views[v]? = some view → w.viewAlive v = false →
      (∀ o ∈ view.observers, w.observerAlive o = false) → ∀ steps,
        let later := after w steps
        (∀ o, o ∈ view.observers ∨ o < w.observers.size ∧ w.observerAlive o = false →
          later.firings o = w.firings o ∧
          ∀ (s : StoreId) store path ids, later.stores[s]? = some store →
            store.dependents? later.observerAlive path = some ids → o ∉ ids) ∧
        ∀ depth (ref : NodeRef) event,
          (∀ listener : Listener Step, listener.view? = some v →
            listener.hear (performer Step.host depth) ⟨event, ref⟩ later = some (.ok (), later)) ∧
          ref.dispatch (performer Step.host depth) event later =
            Run.pinning [.node ref]
              (((((later.documents[ref.document]?.getD .empty).node ref.node).listenersOf
                event).filter (·.view? != some v)).forM
                  (Listener.hear (performer Step.host depth) ⟨event, ref⟩)) later := by
  constructor
  · intro depth levels options e w' failed
    exact gone_of_create_error (passage_calls depth) numbered failed
  · intro v view found dead released steps
    obtain ⟨dormant, fired⟩ := (dormant_of_dead w).passage (passage_after w steps)
    have gone : v < w.views.size ∧ w.viewAlive v = false :=
      ⟨(Array.getElem?_eq_some_iff.mp found).1, dead⟩
    refine ⟨fun o either => ?_, fun depth ref event => ⟨fun listener works => ?_, ?_⟩⟩
    · have silent : o < w.observers.size ∧ w.observerAlive o = false := either.elim
        (fun own => ⟨numbered.listed v view found o own, released o own⟩) id
      refine ⟨fired o silent, fun s store path ids _ listed member => ?_⟩
      obtain ⟨cell, -, rfl⟩ := Option.map_eq_some_iff.mp listed
      have alive := (List.mem_filter.mp member).2
      exact Bool.false_ne_true ((dormant.observerAlive silent).symm.trans alive)
    · exact listener.hear_dead works (dormant.viewAlive gone) _
    · exact ref.dispatch_spares (passage_calls depth) gone dormant event

/-- A session that gives up a view with a field, a button and a text, after one change
of its data. -/
def givingUp : List Step :=
  [.mk (some "page") (.parseDocument
      "<div><input v-model=name><button v-on:click=greet>\x7b\x7bname\x7d\x7d</button></div>"),
    .mk (some "card") (.newView
      { mount := some (.selector "page" "div")
        data := .plain (.object [("name", .string "Ann")])
        methods := [("greet", [.set "name" (.const (.string "Bea"))])] }),
    .mk (some "data") (.view "card" .store),
    .mk (some "field") (.document "page" (.query "input")),
    .mk none (.store "data" (.assign "name" (.string "Cy"))),
    .mk none (.dropView "card")]

/-- What the session goes on to do with the store and the field that it still has. -/
def afterwards : List Step :=
  [.mk none (.store "data" (.assign "name" (.string "Dee"))),
    .mk none (.node "field" (.input "Eve"))]

/-- The second element names no data. -/
def halfBound : World Step :=
  { documents := #[.ofMarkup "<p>\x7b\x7bname\x7d\x7d</p><i v-text></i>"] }

/-- The store and the field still change, but the view that both served hears nothing of it. -/
theorem card_given_up :
    let w := after {} givingUp
    let later := after w afterwards
    (w.viewAlive 0 = false ∧ (w.firings 0).length = 1) ∧
    (later.stores[0]?.map (·.snapshot.strictEq (.object [("name", .string "Dee")])) = some true ∧
      later.documents[0]?.map (fun doc => (doc.node 2).value) = some "Eve") ∧
    later.firings 0 = w.firings 0 ∧
    (∀ store ids, later.stores[0]? = some store →
      store.dependents? later.observerAlive "name" = some ids → 0 ∉ ids) ∧
    ∃ e w', View.create (performer Step.host 5) 5
      { mount := some (.node ⟨0, 0⟩), data := .object [("name", .string "Ann")] } halfBound =
        some (.error e, w') ∧ w'.observers.size = 1 ∧ w'.Gone 0 := by
  intro w later
  have before : (w.views[0]?.map fun view => (view.observers, w.viewAlive 0,
      view.observers.all fun o => !w.observerAlive o)) = some ([0, 1], false, true) := by
    decide +kernel
  obtain ⟨view, found, same⟩ := Option.map_eq_some_iff.mp before
  obtain ⟨own, same⟩ := Prod.mk.inj same
  obtain ⟨dead, released⟩ := Prod.mk.inj same
  have numbered : w.Numbered := numbered_start.passage (passage_after {} givingUp)
  obtain ⟨inert, -⟩ := (dead_views_inert numbered).2 0 view found dead
    (fun o member => by simpa using List.all_eq_true.mp released o member) afterwards
  obtain ⟨firings, unlisted⟩ := inert 0 (.inl (own ▸ List.mem_cons_self))
  refine ⟨⟨dead, by decide +kernel⟩, ⟨by decide +kernel, by decide +kernel⟩, firings,
    fun store ids => unlisted 0 store "name" ids, ?_⟩
  have broke : ((View.create (performer Step.host 5) 5
      { mount := some (.node ⟨0, 0⟩), data := .object [("name", .string "Ann")] } halfBound).map
        fun ended => (ended.1.isOk, ended.2.observers.size)) = some (false, 1) := by decide +kernel
  obtain ⟨⟨made, w'⟩, failed, same⟩ := Option.map_eq_some_iff.mp broke
  obtain ⟨refused, size⟩ := Prod.mk.inj same
  cases made with
  | ok v => cases refused
  | error e =>
    have start : halfBound.Numbered := ⟨nofun, nofun, nofun, nofun, nofun, nofun⟩
    exact ⟨e, w', failed, size, (dead_views_inert start).1 5 5 _ e w' failed⟩

end ReactiveView
