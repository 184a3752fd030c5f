import ReactiveView.Proofs.Reaction.Writing
import ReactiveView.Proofs.Value.Equality

/-! Observers during a write. Every live observer is registered on the cells of its path, and it is
up to date unless one of the passes that are under way has it still to come: it is pending. A pass
takes its own observers off what is pending, one after the other, and whatever effects do in
between, writes of their own included, leaves no other observer behind. -/
namespace ReactiveView

variable {κ : Type} {id : StoreId} {live pending : ObserverId → Prop} {w w' : World κ}

open Run

/-- The value last seen is equal to the value that the path has now. -/
def Observer.Current (observer : Observer κ) (s : Store (Computed κ)) : Prop :=
  ∃ v, s.read observer.path = .ok v ∧ observer.value.strictEq v = true

/-- An observer that writes reach: it is alive and registered wherever its path passes. It
is up to date unless it is pending or its path names an object, whose members have
registries of their own. -/
structure Watched (w : World κ) (s : Store (Computed κ)) (o : ObserverId) (observer : Observer κ)
    (pending : Prop) : Prop where
  found : w.observers[o]? = some observer
  alive : w.observerAlive o = true
  registered : ∀ c ∈ s.cellsAt observer.path, o ∈ (s.registry c).entries
  current : pending ∨ s.NamesObject observer.path ∨ observer.Current s

/-- Every observer counted as live is watched on a store. -/
def Attended (id : StoreId) (live pending : ObserverId → Prop) (w : World κ) : Prop :=
  ∃ s, w.stores[id]? = some s ∧ s.Plain ∧ s.Sound ∧
    ∀ o, live o → ∃ observer, Watched w s o observer (pending o)

/-- What refers to observers is as before, and so is their number. -/
structure Steady (w w' : World κ) : Prop where
  names : w'.names = w.names
  pins : w'.pins = w.pins
  views : w'.views = w.views
  observers : w'.observers.size = w.observers.size

/-- Whatever was pending before, no more is pending afterwards. -/
def Tends (id : StoreId) (live : ObserverId → Prop) (w w' : World κ) : Prop :=
  ∀ pending, Attended id live pending w → Steady w w' ∧ Attended id live pending w'

theorem Steady.refl (w : World κ) : Steady w w :=
  ⟨rfl, rfl, rfl, rfl⟩

theorem Steady.trans {w₁ w₂ w₃ : World κ} (first : Steady w₁ w₂) (second : Steady w₂ w₃) :
    Steady w₁ w₃ :=
  ⟨second.names.trans first.names, second.pins.trans first.pins, second.views.trans first.views,
    second.observers.trans first.observers⟩

theorem World.observerAlive_congr (names : w'.names = w.names) (pins : w'.pins = w.pins)
    (views : w'.views = w.views) (o : ObserverId) : w'.observerAlive o = w.observerAlive o := by
  have viewAlive : w'.viewAlive = w.viewAlive := by
    funext v
    simp only [World.viewAlive, names, pins]
  simp only [World.observerAlive, World.liveViews, viewAlive, names, pins, views]

theorem Steady.alive (steady : Steady w w') (o : ObserverId) :
    w'.observerAlive o = w.observerAlive o :=
  World.observerAlive_congr steady.names steady.pins steady.views o

/-- Pins only keep more observers alive. -/
theorem World.observerAlive_pinned (pins : List Pin) {o : ObserverId}
    (alive : w.observerAlive o = true) :
    ({ w with pins := pins ++ w.pins } : World κ).observerAlive o = true := by
  have views : ∀ v, w.viewAlive v = true →
      ({ w with pins := pins ++ w.pins } : World κ).viewAlive v = true := by
    intro v
    simp only [World.viewAlive, Bool.or_eq_true, List.contains_iff_mem, List.mem_append]
    exact Or.imp_right .inr
  simp only [World.observerAlive, World.liveViews, Bool.or_eq_true, List.contains_iff_mem,
    List.mem_append, List.any_eq_true, List.mem_map, List.mem_filter, Prod.exists] at alive ⊢
  refine alive.imp (Or.imp_right .inr) ?_
  rintro ⟨view, ⟨view', index, ⟨member, kept⟩, same⟩, observes⟩
  exact ⟨view, ⟨view', index, ⟨member, views index kept⟩, same⟩, observes⟩

theorem composes_tends : Composes (Tends (κ := κ) id live) where
  refl w _ attended := ⟨Steady.refl w, attended⟩
  trans first second pending attended := by
    obtain ⟨steady, attended⟩ := first pending attended
    obtain ⟨steady', attended⟩ := second pending attended
    exact ⟨steady.trans steady', attended⟩

namespace Attended

/-- Whoever counts as live was live already or is watched as well. -/
theorem join {live' : ObserverId → Prop} (attended : Attended id live pending w)
    {s : Store (Computed κ)} (here : w.stores[id]? = some s)
    (each : ∀ o, live' o → live o ∨ ∃ observer, Watched w s o observer (pending o)) :
    Attended id live' pending w := by
  obtain ⟨s', here', plain, sound, all⟩ := attended
  obtain rfl := Option.some.inj (here.symm.trans here')
  exact ⟨s, here, plain, sound, fun o isLive => (each o isLive).elim (all o) fun watched => watched⟩

theorem mono {pending' : ObserverId → Prop} (attended : Attended id live pending w)
    (more : ∀ o, pending o → pending' o) : Attended id live pending' w := by
  obtain ⟨s, here, plain, sound, all⟩ := attended
  refine ⟨s, here, plain, sound, fun o isLive => ?_⟩
  obtain ⟨observer, watched⟩ := all o isLive
  exact ⟨observer, watched.found, watched.alive, watched.registered,
    watched.current.imp_left (more o)⟩

/-- The data, the registrations, the observers and their lives are all that counts. -/
theorem transport {s t : Store (Computed κ)} (attended : Attended id live pending w)
    (here : w.stores[id]? = some s) (there : w'.stores[id]? = some t) (same : Store.SameData s t)
    (registered : ∀ (c : CellId) (o : ObserverId), o ∈ (s.registry c).entries →
      o ∈ (t.registry c).entries)
    (found : ∀ (o : ObserverId) observer, w.observers[o]? = some observer →
      w'.observers[o]? = some observer)
    (alive : ∀ o, live o → w.observerAlive o = true → w'.observerAlive o = true) :
    Attended id live pending w' := by
  obtain ⟨s', here', plain, sound, all⟩ := attended
  obtain rfl := Option.some.inj (here.symm.trans here')
  refine ⟨t, there, same.plain plain, same.sound sound, fun o isLive => ?_⟩
  obtain ⟨observer, watched⟩ := all o isLive
  refine ⟨observer, found o observer watched.found, alive o isLive watched.alive, ?_, ?_⟩
  · rw [same.cellsAt]
    exact fun c passed => registered c o (watched.registered c passed)
  · refine watched.current.imp_right (Or.imp (same.namesObject _).mpr ?_)
    rintro ⟨v, read, equal⟩
    exact ⟨v, (same.read _).trans read, equal⟩

theorem congr (attended : Attended id live pending w) (stores : w'.stores[id]? = w.stores[id]?)
    (observers : w'.observers = w.observers)
    (alive : ∀ o, live o → w.observerAlive o = true → w'.observerAlive o = true) :
    Attended id live pending w' := by
  have ⟨s, here, _⟩ := attended
  exact attended.transport here (stores.trans here) (.refl s) (fun _ _ registered => registered)
    (fun _ _ found => observers ▸ found) alive

end Attended

/-- Changes elsewhere in the world leave the observers alone. -/
theorem tends_of_same (names : w'.names = w.names) (pins : w'.pins = w.pins)
    (views : w'.views = w.views) (stores : w'.stores[id]? = w.stores[id]?)
    (observers : w'.observers = w.observers) : Tends id live w w' := by
  intro pending attended
  have alive := World.observerAlive_congr names pins views
  exact ⟨⟨names, pins, views, congrArg Array.size observers⟩,
    attended.congr stores observers fun o _ was => (alive o).trans was⟩

theorem keeps_edit (d : DocumentId)
    (f : (NodeId → Bool) → Document (Listener κ) → Document (Listener κ)) :
    Keeps (Tends id live) (Run.edit d f) :=
  Keeps.modify fun _ => tends_of_same rfl rfl rfl rfl rfl

theorem Attended.pinned (pins : List Pin) (attended : Attended id live pending w) :
    Attended id live pending { w with pins := pins ++ w.pins } :=
  attended.congr rfl rfl fun _ _ => World.observerAlive_pinned pins

/-- Whoever was alive before the pins came is alive when they are gone. -/
theorem Attended.unpinned {pending' : ObserverId → Prop} {pins : List Pin}
    (before : Attended id live pending w) (steady : Steady { w with pins := pins ++ w.pins } w')
    (ended : Attended id live pending' w') :
    Steady w { w' with pins := w.pins } ∧ Attended id live pending' { w' with pins := w.pins } := by
  have back : Steady w { w' with pins := w.pins } :=
    ⟨steady.names, rfl, steady.views, steady.observers⟩
  obtain ⟨_, _, _, _, all⟩ := before
  refine ⟨back, ended.congr rfl rfl fun o isLive _ => ?_⟩
  obtain ⟨_, watched⟩ := all o isLive
  exact (back.alive o).trans watched.alive

theorem keeps_pinning {α : Type} (pins : List Pin) {x : Run κ α} (inner : Keeps (Tends id live) x) :
    Keeps (Tends id live) (Run.pinning pins x) := by
  intro w r w' ran pending attended
  obtain ⟨after, answer, rfl⟩ := pinning_eq_some ran
  obtain ⟨steady, ended⟩ := inner _ _ _ answer pending (attended.pinned pins)
  exact attended.unpinned steady ended

theorem keeps_whileAlive (v : ViewId) {x : Run κ Unit} (inner : Keeps (Tends id live) x) :
    Keeps (Tends id live) (Run.whileAlive v x) := by
  refine Keeps.bind composes_tends (Keeps.world composes_tends) fun w => ?_
  split
  · exact keeps_pinning _ inner
  · exact Keeps.pure composes_tends _

theorem keeps_register (scope : Scope) (cell : CellId) :
    Keeps (Tends (κ := κ) id live) (scope.register cell) := by
  intro w r w' ran pending attended
  by_cases same : scope.store = id
  · subst same
    have ⟨s, here, _⟩ := attended
    rw [Scope.register_run here cell] at ran
    obtain ⟨-, rfl⟩ := Prod.mk.inj (Option.some.inj ran)
    have steady : Steady w (w.withStore scope.store (s.track scope.tracker [cell])) :=
      ⟨rfl, rfl, rfl, rfl⟩
    exact ⟨steady, attended.transport here (World.stores_withStore here _) (.track _ _ s)
      (fun c o registered => Store.mem_registry_track (.inl registered)) (fun _ _ found => found)
      fun o _ was => (steady.alive o).trans was⟩
  · unfold Scope.register at ran
    cases tracker : scope.tracker with
    | none =>
      rw [tracker] at ran
      exact Keeps.pure composes_tends _ _ _ _ ran pending attended
    | some o =>
      rw [tracker] at ran
      obtain ⟨-, rfl⟩ := Prod.mk.inj (Option.some.inj ran)
      have tends : ∀ t, Tends id live w (w.withStore scope.store t) := fun t =>
        tends_of_same rfl rfl rfl (World.stores_withStore_of_ne (Ne.symm same) w t) rfl
      exact tends _ pending attended

/-! Reading, rendering and the effects on documents, as far as the calls inside them do. -/

section

variable {perform : Performer κ} (calls : ∀ c, Keeps (Tends id live) (perform c))
include calls

theorem keeps_property? (scope : Scope) (place : Handle) (key : String) :
    Keeps (Tends id live) (scope.property? perform place key) := by
  have store : Keeps (Tends (κ := κ) id live) (Run.store scope.store) :=
    Keeps.inspect composes_tends _
  refine Keeps.bind composes_tends store fun s => ?_
  cases s.find place key with
  | missing => exact Keeps.pure composes_tends _
  | inside _ => exact Keeps.pure composes_tends _
  | cell c =>
    exact Keeps.bind composes_tends (keeps_register scope c) fun _ =>
      Keeps.bind composes_tends store fun _ => Keeps.pure composes_tends _
  | computed c property =>
    exact Keeps.bind composes_tends (keeps_register scope c) fun _ =>
      Keeps.bind composes_tends (Keeps.program composes_tends calls _) fun _ =>
        Keeps.pure composes_tends _

theorem keeps_walk (scope : Scope) (path : String) (keys : List String) (place : Handle) :
    Keeps (Tends id live) (scope.walk perform path keys place) := by
  induction keys generalizing place with
  | nil => exact Keeps.pure composes_tends _
  | cons key rest ih =>
    refine Keeps.bind composes_tends (keeps_property? calls scope place key) fun next => ?_
    cases next with
    | none => exact Keeps.fail composes_tends _
    | some next => exact ih next

theorem keeps_resolve (scope : Scope) (path : String) :
    Keeps (Tends id live) (scope.resolve perform path) := by
  have store : Keeps (Tends (κ := κ) id live) (Run.store scope.store) :=
    Keeps.inspect composes_tends _
  refine Keeps.bind composes_tends ?_ fun way => ?_
  · exact Keeps.bind composes_tends (Keeps.ofExcept composes_tends _) fun _ =>
      Keeps.bind composes_tends store fun _ =>
        Keeps.bind composes_tends (keeps_walk calls scope path _ _) fun _ =>
          Keeps.pure composes_tends _
  · refine Keeps.bind composes_tends (keeps_property? calls scope way.1 way.2) fun found => ?_
    cases found with
    | some place => exact Keeps.bind composes_tends store fun _ => Keeps.pure composes_tends _
    | none =>
      refine Keeps.bind composes_tends store fun s => ?_
      split
      · exact Keeps.fail composes_tends _
      · exact Keeps.pure composes_tends _

theorem keeps_renderFrom (store : StoreId) (template : List Piece) :
    Keeps (Tends id live) (renderFrom perform store template) := by
  refine Keeps.bind composes_tends (Keeps.mapM composes_tends fun piece _ => ?_) fun _ =>
    Keeps.pure composes_tends _
  cases piece with
  | literal c => exact Keeps.pure composes_tends _
  | slot path =>
    exact Keeps.bind composes_tends (keeps_resolve calls _ path) fun _ =>
      Keeps.pure composes_tends _

theorem keeps_fire (effect : Effect κ) (new old : Value) :
    Keeps (Tends id live) (effect.fire perform new old) := by
  cases effect with
  | template view target pieces =>
    exact keeps_whileAlive view <|
      Keeps.bind composes_tends (Keeps.inspect composes_tends _) fun _ =>
        Keeps.bind composes_tends (keeps_renderFrom calls _ pieces) fun _ => keeps_edit _ _
  | code run => exact Keeps.program composes_tends calls _
  | viewCode view run => exact keeps_whileAlive view (Keeps.program composes_tends calls _)
  | formValue target =>
    exact keeps_edit target.document fun _ doc => doc.setValue target.node new.propertyText
  | html target =>
    exact keeps_edit target.document fun held doc =>
      doc.setInnerHtml held target.node new.propertyText
  | text target =>
    exact keeps_edit target.document fun held doc =>
      doc.setTextContent held target.node new.propertyText

end

end ReactiveView
