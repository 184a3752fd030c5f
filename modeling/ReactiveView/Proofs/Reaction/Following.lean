import ReactiveView.Proofs.Reaction.FanOut
import ReactiveView.Proofs.Reaction.Sources

/-! Observers of computed properties follow their sources. Such an observer is told of writes to
cells that its getter passed when it was made, and never of a write to the property itself, which
has no value of its own. By way of its sources it is up to date after every write that returns, as
long as the effects on the way are silent. -/
namespace ReactiveView

variable {κ : Type} {host : Nat → Performer κ → κ → Run κ Unit} {levels : Nat}
  {perform : Performer κ}
variable {id : StoreId} {o : ObserverId} {path : String} {w₀ w w₁ w₂ w' : World κ}
variable {s t : Store (Computed κ)} {told : List ObserverId} {effect : Effect κ}

open Run

/-- Views and data stay, one observer stays registered where it is, and observers keep their paths
and effects, though not their values. -/
structure Carried (id : StoreId) (o : ObserverId) (w w' : World κ) : Prop where
  views : ViewsStay w w'
  stores : ∀ (other : StoreId) s, w.stores[other]? = some s →
    ∃ t, w'.stores[other]? = some t ∧ s.SameData t
  listed : ∀ s t, w.stores[id]? = some s → w'.stores[id]? = some t →
    ∀ c, o ∈ (s.registry c).entries → o ∈ (t.registry c).entries
  observers : ∀ (p : ObserverId) observer, w.observers[p]? = some observer →
    ∃ v, w'.observers[p]? = some { observer with value := v }

theorem composes_carried : Composes (Carried (κ := κ) id o) where
  refl w := by
    refine ⟨.refl w, fun _ s here => ⟨s, here, .refl s⟩, ?_, fun _ observer found => ⟨_, found⟩⟩
    intro s t here there c registered
    obtain rfl := Option.some.inj (here.symm.trans there)
    exact registered
  trans first second := by
    refine ⟨first.views.trans second.views, ?_, ?_, ?_⟩
    · intro other s here
      obtain ⟨t, between, same⟩ := first.stores other s here
      obtain ⟨u, there, same'⟩ := second.stores other t between
      exact ⟨u, there, same.trans same'⟩
    · intro s u here there c registered
      obtain ⟨t, between, -⟩ := first.stores id s here
      exact second.listed t u between there c (first.listed s t here between c registered)
    · intro p observer found
      obtain ⟨v, between⟩ := first.observers p observer found
      obtain ⟨v', after⟩ := second.observers p _ between
      exact ⟨v', after⟩

/-- The views of a world are there with its other stores, and one store only reads. -/
structure Alongside (id : StoreId) (w w' : World κ) : Prop where
  views : ViewsStay w w'
  reads : ∃ s, w'.stores[id]? = some s ∧ s.ReadsOnly
  stores : ∀ other ≠ id, ∀ s, w.stores[other]? = some s →
    ∃ t, w'.stores[other]? = some t ∧ s.SameData t

theorem Store.SameData.readsOnly (same : s.SameData t) (only : s.ReadsOnly) : t.ReadsOnly :=
  fun c property content => only c property ((same.content c).symm.trans content)

theorem Alongside.carried (along : Alongside id w w₁) (carried : Carried id o w₁ w₂) :
    Alongside id w w₂ := by
  obtain ⟨s, here, only⟩ := along.reads
  obtain ⟨t, there, same⟩ := carried.stores id s here
  refine ⟨along.views.trans carried.views, ⟨t, there, same.readsOnly only⟩, ?_⟩
  intro other elsewhere u was
  obtain ⟨x, between, same⟩ := along.stores other elsewhere u was
  obtain ⟨y, after, same'⟩ := carried.stores other x between
  exact ⟨y, after, same.trans same'⟩

/-- Observers keep their values as well. -/
structure Unmoved (id : StoreId) (o : ObserverId) (w w' : World κ) : Prop
    extends Carried id o w w' where
  values : ∀ (p : ObserverId) observer, w.observers[p]? = some observer →
    w'.observers[p]? = some observer

/-- Whatever one store of a world may hold, the effect writes nothing, changes no observer and takes
the one observer off no cell. -/
def Effect.Silent (perform : Performer κ) (id : StoreId) (o : ObserverId) (w : World κ)
    (effect : Effect κ) : Prop :=
  ∀ new old, Within (Alongside id w) (Unmoved id o) (effect.fire perform new old)

theorem frames_unmoved : Frames (Alongside id w) (Unmoved id o) where
  composes := ⟨fun w => ⟨composes_carried.refl w, fun _ _ found => found⟩,
    fun first second => ⟨composes_carried.trans first.toCarried second.toCarried,
      fun p observer found => second.values p observer (first.values p observer found)⟩⟩
  stays along unmoved := along.carried unmoved.toCarried
  aside views stores observers _ := by
    refine ⟨⟨?_, ?_, ?_, ?_⟩, ?_⟩
    · intro v view found
      exact ⟨view, views ▸ found, rfl⟩
    · intro other s here
      exact ⟨s, stores ▸ here, .refl s⟩
    · intro s t here there c registered
      obtain rfl := Option.some.inj (here.symm.trans (stores ▸ there))
      exact registered
    · intro p observer found
      exact ⟨observer.value, observers ▸ found⟩
    · intro p observer found
      exact observers ▸ found

/-- Reading a store that only reads registers observers at most. -/
theorem resolve_unmoved (levels : Nat) (tracker : Option ObserverId) (path : String) :
    Within (Alongside id w) (Unmoved id o)
      (Scope.resolve (performer host levels) ⟨id, tracker⟩ path) := by
  intro w₁ r w₂ along ran
  obtain ⟨s, here, only⟩ := along.reads
  rw [Scope.resolve_performer host only here] at ran
  obtain ⟨first, -, same⟩ := Option.map_eq_some_iff.mp ran
  obtain ⟨-, rfl⟩ := Prod.mk.inj same
  have there := World.stores_withStore here (s.track tracker first.cells)
  refine ⟨⟨.refl _, ?_, ?_, fun _ observer found => ⟨_, found⟩⟩, fun _ _ found => found⟩
  · intro other u was
    by_cases own : other = id
    · subst own
      obtain rfl := Option.some.inj (here.symm.trans was)
      exact ⟨_, there, .track tracker first.cells s⟩
    · exact ⟨u, (World.stores_withStore_of_ne own w₁ _).trans was, .refl u⟩
  · intro u t was now c registered
    obtain rfl := Option.some.inj (here.symm.trans was)
    obtain rfl := Option.some.inj (there.symm.trans now)
    exact Store.mem_registry_track (.inl registered)

/-- Effects of bindings are silent, and so is code that only reads and logs. -/
theorem Effect.Quiet.silent (quiet : effect.Quiet id w) :
    effect.Silent (performer host levels) id o w := by
  intro new old
  refine quiet.within frames_unmoved (fun _ along => along.views) ?_ new old
  intro levels tracker path
  exact resolve_unmoved levels tracker path

/-- An observer of a path with an effect has the value that the path comes to in a store. -/
def Follows (id : StoreId) (levels : Nat) (s : Store (Computed κ)) (o : ObserverId) (path : String)
    (effect : Effect κ) (w : World κ) : Prop :=
  ∃ value r v, w.observers[o]? = some { path, value, effect } ∧
    s.reading id levels path = some r ∧ r.answer = .ok v ∧ value.strictEq v = true

section Passes

/-- The same data comes to the same. -/
theorem Store.SameData.readingFrom (same : s.SameData t) (reads : String → Option Reading)
    (keys : List String) (place : Handle) :
    t.readingFrom id reads path keys place = s.readingFrom id reads path keys place := by
  induction keys generalizing place with
  | nil => rw [Store.readingFrom, Store.readingFrom, same.valueOf]
  | cons key rest ih =>
    simp only [Store.readingFrom, same.find, Store.isNull_congr same, ih, Store.handleOf,
      same.content]

theorem Store.SameData.reading (same : s.SameData t) (levels : Nat) :
    t.reading id levels = s.reading id levels := by
  induction levels with
  | zero => rfl
  | succ levels ih =>
    funext path
    simp only [Store.reading, Store.readingOf, ih, same.root, same.readingFrom]

/-- An update without failure has read the path of its observer; and it is over if the value is
equal to the one last seen. -/
theorem updateObserver_read (only : s.ReadsOnly) (here : w.stores[id]? = some t)
    (same : s.SameData t) {p : ObserverId} {observer : Observer κ}
    (found : w.observers[p]? = some observer)
    (ran : updateObserver (performer host levels) id p w = some (.ok (), w')) :
    ∃ r new, s.reading id (levels + 1) observer.path = some r ∧ r.answer = .ok new ∧
      (observer.value.strictEq new = true ∧ w' = w ∨
        observer.effect.fire (performer host levels) new observer.value { w with
          observers := w.observers.modify p fun observer => { observer with value := new }
          journal := ⟨p, new, observer.value⟩ :: w.journal } = some (.ok (), w')) := by
  have resolved : ∀ path, Scope.resolve (performer host levels) { store := id } path w =
      (t.reading id (levels + 1) path).map fun r => (r.answer, w) :=
    resolve_untracked_reading (same.readsOnly only) here levels
  rw [same.reading] at resolved
  obtain ⟨other, looked, known⟩ := observer_run p w
  obtain rfl := known observer found
  unfold updateObserver at ran
  rw [bind_of_ok looked] at ran
  obtain ⟨new, w₁, answer, ran⟩ := bind_eq_ok ran
  rw [resolved] at answer
  obtain ⟨r, came, ended⟩ := Option.map_eq_some_iff.mp answer
  obtain ⟨value, rfl⟩ := Prod.mk.inj ended
  rw [bind_of_ok looked] at ran
  refine ⟨r, new, came, value, ?_⟩
  split at ran
  · rename_i equal
    exact .inl ⟨equal, (Prod.mk.inj (Option.some.inj ran)).2.symm⟩
  · exact .inr ran

/-- An update leaves its observer with the value that its path comes to, and the others
as they are. -/
theorem updateObserver_follows (only : s.ReadsOnly) (here : w.stores[id]? = some t)
    (same : s.SameData t) (along : Alongside id w₀ w) {p : ObserverId}
    {observer : Observer κ} (found : w.observers[p]? = some observer)
    (silent : observer.effect.Silent (performer host levels) id o w₀)
    (ran : updateObserver (performer host levels) id p w = some (.ok (), w')) :
    Carried id o w w' ∧ Follows id (levels + 1) s p observer.path observer.effect w' ∧
    ∀ q ≠ p, ∀ observer, w.observers[q]? = some observer → w'.observers[q]? = some observer := by
  obtain ⟨r, new, came, value, ⟨equal, rfl⟩ | fired⟩ := updateObserver_read only here same found ran
  · refine ⟨composes_carried.refl _, ?_, fun _ _ _ found => found⟩
    exact ⟨observer.value, r, new, found, came, value, equal⟩
  · have kept : Carried id o w { w with
        observers := w.observers.modify p fun observer => { observer with value := new }
        journal := ⟨p, new, observer.value⟩ :: w.journal } := by
      refine ⟨.refl w, fun _ s here => ⟨s, here, .refl s⟩, ?_, ?_⟩
      · intro s t here there c registered
        obtain rfl := Option.some.inj (here.symm.trans there)
        exact registered
      · intro q other found'
        rw [Array.getElem?_modify]
        split
        · exact ⟨new, by rw [found', Option.map_some]⟩
        · exact ⟨_, found'⟩
    have spares := silent _ _ _ _ _ (along.carried kept) fired
    refine ⟨composes_carried.trans kept spares.toCarried, ?_, ?_⟩
    · refine ⟨new, r, new, spares.values p _ ?_, came, value, Value.strictEq_self new⟩
      rw [Array.getElem?_modify, if_pos rfl, found]
      rfl
    · intro q distinct other found'
      refine spares.values q other ?_
      rw [Array.getElem?_modify, if_neg distinct.symm, found']

/-- After a pass an observer follows its path if it did so before or if it was one of
those updated. -/
theorem updateAll_follows (only : s.ReadsOnly) (here : w.stores[id]? = some t) (same : s.SameData t)
    (along : Alongside id w₀ w)
    (silent : ∀ p ∈ told, ∃ observer, w.observers[p]? = some observer ∧
      observer.effect.Silent (performer host levels) id o w₀)
    {value : Value} (watched : w.observers[o]? = some { path, value, effect })
    (follows : o ∉ told → Follows id (levels + 1) s o path effect w)
    (ran : told.forM (updateObserver (performer host levels) id) w = some (.ok (), w')) :
    Carried id o w w' ∧ Follows id (levels + 1) s o path effect w' := by
  induction told generalizing w t value with
  | nil =>
    obtain ⟨-, rfl⟩ := Prod.mk.inj (Option.some.inj ran)
    exact ⟨composes_carried.refl w, follows List.not_mem_nil⟩
  | cons p rest ih =>
    obtain ⟨_, w₁, first, ran⟩ := bind_eq_ok ran
    obtain ⟨updated, wasThere, isSilent⟩ := silent p List.mem_cons_self
    obtain ⟨carried, upToDate, others⟩ :=
      updateObserver_follows only here same along wasThere isSilent first
    obtain ⟨u, there, same'⟩ := carried.stores id t here
    obtain ⟨v, watchedLater⟩ := carried.observers o _ watched
    have later : Carried id o w₁ w' ∧ Follows id (levels + 1) s o path effect w' := by
      refine ih there (same.trans same') (along.carried carried) ?_ watchedLater ?_ ran
      · intro q member
        obtain ⟨other, was, isSilent⟩ := silent q (List.mem_cons_of_mem _ member)
        obtain ⟨v, now⟩ := carried.observers q other was
        exact ⟨_, now, isSilent⟩
      · intro notLater
        by_cases own : o = p
        · subst own
          obtain rfl := Option.some.inj (watched.symm.trans wasThere)
          exact upToDate
        · have notTold : o ∉ p :: rest := by
            intro member
            exact (List.mem_cons.mp member).elim own notLater
          obtain ⟨value, r, v, found, follows⟩ := follows notTold
          exact ⟨value, r, v, others o own _ found, follows⟩
    exact ⟨composes_carried.trans carried later.1, later.2⟩

end Passes

/-- An observer follows a path of a store with sources, and is registered on all cells that the path
passes. -/
structure Followed (id : StoreId) (levels : Nat) (o : ObserverId) (path : String)
    (effect : Effect κ) (s : Store (Computed κ)) (w : World κ) : Prop where
  here : w.stores[id]? = some s
  sound : s.Sound
  sourced : s.Sourced
  flat : ¬ s.NamesObject path
  follows : Follows id levels s o path effect w
  registered : ∀ r, s.reading id levels path = some r → ∀ c ∈ r.cells, o ∈ (s.registry c).entries

theorem Store.SameData.sourced (same : s.SameData t) (sourced : s.Sourced) : t.Sourced := by
  intro c property content
  obtain ⟨paths, lists, flat⟩ := sourced c property ((same.content c).symm.trans content)
  exact ⟨paths, lists, fun q member names => flat q member ((same.namesObject q).mp names)⟩

/-- What leaves the data and adds to registries leaves an observer that follows its path. -/
theorem Followed.still (followed : Followed id levels o path effect s w)
    (there : w'.stores[id]? = some t) (same : s.SameData t)
    (follows : Follows id levels s o path effect w')
    (registered : ∀ c, o ∈ (s.registry c).entries → o ∈ (t.registry c).entries) :
    Followed id levels o path effect t w' := by
  refine ⟨there, same.sound followed.sound, same.sourced followed.sourced, ?_, ?_, ?_⟩
  · intro names
    exact followed.flat ((same.namesObject path).mp names)
  · rw [Follows, same.reading]
    exact follows
  · intro r came c passed
    rw [same.reading] at came
    exact registered c (followed.registered r came c passed)

/-- The observer is made on a path that comes to a value. -/
theorem followed_of_observe {allowed : Computed κ → Prop} (here : w.stores[id]? = some s)
    (arises : s.Arises allowed w.observers.size) (sourced : s.Sourced) (flat : ¬ s.NamesObject path)
    (made : observe (performer host levels) id path effect w = some (.ok o, w')) :
    ∃ t, Followed id (levels + 1) o path effect t w' := by
  have filled : Path.isEmpty path = false := by
    cases blank : Path.isEmpty path with
    | true =>
      unfold observe at made
      rw [blank] at made
      cases made
    | false => rfl
  have formed := arises.formed
  have only := sourced.readsOnly
  obtain ⟨r, value, came, answered, rfl, kept⟩ := observe_performer only here filled made
  obtain ⟨v, succeeds, rfl⟩ : ∃ v, r.answer = .ok v ∧ o = w.observers.size := by
    cases answer : r.answer with
    | error e => rw [answer] at answered; cases answered
    | ok v => rw [answer] at answered; exact ⟨v, rfl, Except.ok.inj answered⟩
  obtain rfl := kept v succeeds
  have same := Store.SameData.track (some w.observers.size) r.cells s
  refine ⟨_, World.stores_withStore here _, same.sound formed.sound,
    same.sourced sourced, ?_, ?_, ?_⟩
  · intro names
    exact flat ((same.namesObject path).mp names)
  · refine ⟨value, r, value, ?_, ?_, succeeds, Value.strictEq_self value⟩
    · simp [World.observing]
    · rw [same.reading, came]
  · intro r' came' c passed
    rw [same.reading, came] at came'
    obtain rfl := Option.some.inj came'
    have captured : Captured host id w s path c :=
      (mem_reading_iff formed only here came c).mp passed
    exact Store.mem_registry_track (.inr ⟨rfl, passed, captured.inside formed.sound⟩)

/-- A write to a cell of data leaves the observer with the value that its path comes to then. -/
theorem Followed.assign (followed : Followed id (levels + 1) o path effect s w) {p : String}
    {c : CellId} {v : Value} (backed : s.cellAt? p = some c)
    (data : ∀ property, s.content c ≠ .computed property) (live : w.observerAlive o = true)
    (silent : ∀ q ∈ (s.registry c).ids w.observerAlive, ∃ observer,
      w.observers[q]? = some observer ∧ observer.effect.Silent (performer host levels) id o w)
    (ran : Scope.assign (performer host levels) { store := id } p v w = some (.ok (), w')) :
    ∃ t, Followed id (levels + 1) o path effect t w' := by
  have here := followed.here
  obtain ⟨-, rfl⟩ | ⟨-, told⟩ := Scope.assign_eq_ok _ data here backed ran
  · exact ⟨s, followed⟩
  · obtain ⟨inside, notRoot⟩ := Store.cellAt?_sound followed.sound backed
    have wrote := Store.overwrites_overwrite inside v w.observerAlive
    have there := World.stores_withStore here (s.overwrite c v w.observerAlive)
    have sourced := wrote.sourced followed.sourced
    obtain ⟨after, updated, rfl⟩ := pinning_eq_some told
    have passed :
        ((s.registry c).ids w.observerAlive).forM (updateObserver (performer host levels) id)
        (w.passing id (s.overwrite c v w.observerAlive) ((s.registry c).ids w.observerAlive)) =
          some (.ok (), after) := updated
    obtain ⟨value, r, u, found, came, succeeds, equal⟩ := followed.follows
    have along : Alongside id w (w.passing id (s.overwrite c v w.observerAlive)
        ((s.registry c).ids w.observerAlive)) := by
      refine ⟨.refl w, ⟨_, there, sourced.readsOnly⟩, ?_⟩
      intro other elsewhere x was
      exact ⟨x, (World.stores_withStore_of_ne elsewhere w _).trans was, .refl x⟩
    -- An observer that is not told did not pass the cell, so its path comes to what it came to.
    have untold : o ∉ (s.registry c).ids w.observerAlive →
        Follows id (levels + 1) (s.overwrite c v w.observerAlive) o path effect
          (w.passing id (s.overwrite c v w.observerAlive)
            ((s.registry c).ids w.observerAlive)) := by
      intro notTold
      have free : c ∉ r.cells := by
        intro passes
        exact notTold (List.mem_filter.mpr ⟨followed.registered r came c passes, live⟩)
      exact ⟨value, r, u, found,
        wrote.reading_elsewhere data notRoot followed.sourced followed.flat came free,
        succeeds, equal⟩
    obtain ⟨carried, follows⟩ :=
      updateAll_follows sourced.readsOnly (by exact there) (.refl _) along
      silent found untold passed
    have between :
        Followed id (levels + 1) o path effect (s.overwrite c v w.observerAlive) { after with
        stores := (w.withStore id (s.overwrite c v w.observerAlive)).stores } := by
      refine ⟨there, wrote.sound followed.sound notRoot, sourced, ?_, follows, ?_⟩
      · intro names
        exact followed.flat (wrote.namesObject_before names)
      · intro r' came' a passes
        obtain ⟨-, r'', u', -, came'', succeeds', -⟩ := follows
        obtain rfl := Option.some.inj (came'.symm.trans came'')
        have before :=
          wrote.reading_fewer data notRoot followed.sourced (levels + 1) path r r' came came'
          ⟨u, succeeds⟩ ⟨u', succeeds'⟩ passes
        exact Store.mem_registry_overwrite live (followed.registered r came a before)
    obtain ⟨t, later, same⟩ := carried.stores id _ there
    exact ⟨t, between.still later same follows fun a => carried.listed _ _ there later a⟩

/-- What may happen once an observer is made: writes to cells of data that return, as long as it is
alive and the observers told have silent effects; further observers, made or refused; and whatever
leaves the store and the observers alone. -/
inductive Course (host : Nat → Performer κ → κ → Run κ Unit) (levels : Nat) (id : StoreId)
    (o : ObserverId) (w₀ : World κ) : World κ → Prop
  | start : Course host levels id o w₀ w₀
  | assign {w w' : World κ} {s : Store (Computed κ)} {p : String} {c : CellId} {v : Value} :
      Course host levels id o w₀ w → w.stores[id]? = some s → s.cellAt? p = some c →
      (∀ property, s.content c ≠ .computed property) → w.observerAlive o = true →
      (∀ q ∈ (s.registry c).ids w.observerAlive, ∃ observer, w.observers[q]? = some observer ∧
        observer.effect.Silent (performer host levels) id o w) →
      Scope.assign (performer host levels) { store := id } p v w = some (.ok (), w') →
      Course host levels id o w₀ w'
  | watch {w w' : World κ} {p : String} {effect : Effect κ}
      {answer : Except BindingError ObserverId} :
      Course host levels id o w₀ w →
      observe (performer host levels) id p effect w = some (answer, w') →
      Course host levels id o w₀ w'
  | elsewhere {w w' : World κ} : Course host levels id o w₀ w → w'.stores[id]? = w.stores[id]? →
      w'.observers = w.observers → Course host levels id o w₀ w'

theorem Course.followed (course : Course host levels id o w₀ w')
    (start : ∃ s, Followed id (levels + 1) o path effect s w₀) :
    ∃ t, Followed id (levels + 1) o path effect t w' := by
  induction course with
  | start => exact start
  | assign _ here backed data live silent ran ih =>
    obtain ⟨s, followed⟩ := ih
    obtain rfl := Option.some.inj (followed.here.symm.trans here)
    exact followed.assign backed data live silent ran
  | @watch w w' p _ answer _ ran ih =>
    obtain ⟨s, followed⟩ := ih
    cases blank : Path.isEmpty p with
    | true =>
      unfold observe at ran
      rw [blank] at ran
      obtain ⟨-, rfl⟩ := Prod.mk.inj (Option.some.inj ran)
      exact ⟨s, followed⟩
    | false =>
      obtain ⟨r, _, -, -, rfl, -⟩ :=
        observe_performer followed.sourced.readsOnly followed.here blank ran
      have same := Store.SameData.track (some w.observers.size) r.cells s
      obtain ⟨value, r', v, found, follows⟩ := followed.follows
      refine ⟨_, followed.still (World.stores_withStore followed.here _) same
        ⟨value, r', v, ?_, follows⟩ fun c registered => Store.mem_registry_track (.inl registered)⟩
      obtain ⟨inside, -⟩ := Array.getElem?_eq_some_iff.mp found
      simp only [World.observing, Array.getElem?_push, if_neg (Nat.ne_of_lt inside)]
      exact found
  | elsewhere _ stores observers ih =>
    obtain ⟨s, followed⟩ := ih
    have follows := followed.follows
    rw [Follows, ← observers] at follows
    exact ⟨s, followed.still (stores.trans followed.here) (.refl s) follows fun _ registered =>
      registered⟩

theorem not_namesObject_of_computed {x : CellId} {property : Computed κ}
    (backed : s.cellAt? path = some x)
    (content : s.content x = .computed property) : ¬ s.NamesObject path := by
  rintro ⟨y, keys, found, object⟩
  obtain rfl := Option.some.inj (backed.symm.trans found)
  cases content.symm.trans object

/-- Observers of computed properties follow their sources. The computed properties of the store read
fixed lists of paths, which name no objects when the observer is made: they name cells with other
data, or computed properties, or places inside of these. Whatever is written to cells of data from
then on, also to objects on the way to a source, after each write the observer has the value that
its property comes to, and the property does come to one. -/
theorem sources_followed {allowed : Computed κ → Prop} (here : w.stores[id]? = some s)
    (arises : s.Arises allowed w.observers.size) (sourced : s.Sourced) {x : CellId}
    {property : Computed κ} (backed : s.cellAt? path = some x)
    (computed : s.content x = .computed property)
    (made : observe (performer host levels) id path effect w = some (.ok o, w₀))
    (course : Course host levels id o w₀ w') :
    ∃ value v, w'.observers[o]? = some { path, value, effect } ∧
      Scope.resolve (performer host levels) { store := id } path w' = some (.ok v, w') ∧
      value.strictEq v = true := by
  have flat := not_namesObject_of_computed backed computed
  obtain ⟨t, followed⟩ := course.followed (followed_of_observe here arises sourced flat made)
  obtain ⟨value, r, v, found, came, succeeds, equal⟩ := followed.follows
  refine ⟨value, v, found, ?_, equal⟩
  rw [resolve_untracked_reading followed.sourced.readsOnly followed.here, came,
    Option.map_some, succeeds]

/-- The title of a tag is made from an age, and its label from a name and from the title. -/
def tagTitle : Computed Empty :=
  { getter := (Reader.listed ["user.age"] fun values => .ok (.array values)).program }

def tagLabel : Computed Empty :=
  { getter := (Reader.listed ["user.name", "title"] fun values => .ok (.array values)).program }

def tag : Store (Computed Empty) :=
  ((Store.ofValue cardData).defineComputed "title" tagTitle).defineComputed "label" tagLabel

def tagged : Performer Empty :=
  performer (fun _ _ command => nomatch command) 3

theorem tag_arises : tag.Arises (fun property => property = tagTitle ∨ property = tagLabel) 0 :=
  .defineComputed "label" (.inr rfl)
    (.defineComputed "title" (.inl rfl) (.ofValue cardData_canonical))

theorem tag_sourced : tag.Sourced := by
  have flat : ∀ q ∈ ["user.age", "user.name", "title"], ¬ tag.NamesObject q := by
    rintro q member ⟨x, keys, found, object⟩
    have told : ∀ q ∈ ["user.age", "user.name", "title"], (tag.cellAt? q).all fun x =>
        match tag.content x with
        | .object _ => false
        | .leaf _ | .computed _ => true := by decide +kernel
    have here := told q member
    rw [found] at here
    simp [object] at here
  intro c property content
  obtain rfl | rfl := tag_arises.formed.computed c property content
  · refine ⟨["user.age"], ⟨fun values => .ok (.array values), fun _ => rfl⟩, ?_⟩
    intro q member
    exact flat q (List.mem_cons.mpr (.inl (List.mem_singleton.mp member)))
  · refine ⟨["user.name", "title"], ⟨fun values => .ok (.array values), fun _ => rfl⟩, ?_⟩
    intro q member
    exact flat q (List.mem_cons_of_mem _ member)

/-- The write is to a cell of data, and tells the observer of the label alone. -/
def tagWrites (p : String) (w : World Empty) : Bool :=
  (w.stores[0]?.bind fun s => (s.cellAt? p).map fun c => (match s.content c with
    | .computed _ => false
    | _ => true) && w.observerAlive 0 && (s.registry c).ids w.observerAlive == [0]).getD false

theorem tag_course {w₀ w w' : World Empty} {p : String} {v : Value}
    (start : ∃ s, Followed 0 4 0 "label" noting s w₀)
    (course : Course (fun _ _ command => nomatch command) 3 0 0 w₀ w)
    (writes : tagWrites p w = true)
    (ran : Scope.assign tagged { store := 0 } p v w = some (.ok (), w')) :
    Course (fun _ _ command => nomatch command) 3 0 0 w₀ w' := by
  obtain ⟨s, followed⟩ := course.followed start
  obtain ⟨value, -, -, watching, -⟩ := followed.follows
  simp only [tagWrites, followed.here, Option.bind_some] at writes
  cases backed : s.cellAt? p with
  | none => rw [backed] at writes; cases writes
  | some c =>
    rw [backed] at writes
    simp only [Option.map_some, Option.getD_some, Bool.and_eq_true, beq_iff_eq] at writes
    obtain ⟨⟨data, live⟩, told⟩ := writes
    refine .assign course followed.here backed ?_ live ?_ ran
    · intro property content
      rw [content] at data
      cases data
    · intro q member
      rw [told] at member
      obtain rfl := List.mem_singleton.mp member
      exact ⟨_, watching, Effect.Quiet.silent fun _ _ => ⟨trivial, fun _ => trivial⟩⟩

/-- The world with the one observer held. -/
def holding (w : World Empty) : World Empty :=
  { w with names := { observers := [("label", 0)] } }

/-- An age is written, and then the object that it lies in. -/
theorem tag_followed : ∃ w₀ w w' : World Empty,
    observe tagged 0 "label" noting { stores := #[tag] } = some (.ok 0, w₀) ∧
    Scope.assign tagged { store := 0 } "user.age" (.string "37") (holding w₀) = some (.ok (), w) ∧
    Scope.assign tagged { store := 0 } "user"
      (.object [("age", .string "1"), ("name", .string "bob")]) w = some (.ok (), w') ∧
    w'.journal.map (fun f => f.new.display) = ["bob,1", "ada,37"] ∧
    ∃ value v, w'.observers[0]? = some { path := "label", value, effect := noting } ∧
      Scope.resolve tagged { store := 0 } "label" w' = some (.ok v, w') ∧
      value.strictEq v = true := by
  have ran : ((observe tagged 0 "label" noting { stores := #[tag] }).bind fun made =>
      (Scope.assign tagged { store := 0 } "user.age" (.string "37")
        (holding made.2)).bind fun older =>
        (Scope.assign tagged { store := 0 } "user"
          (.object [("age", .string "1"), ("name", .string "bob")]) older.2).map fun other =>
            (made.1.toOption == some 0 && older.1.isOk && other.1.isOk &&
              tagWrites "user.age" (holding made.2) && tagWrites "user" older.2,
              other.2.journal.map fun f => f.new.display)) =
      some (true, ["bob,1", "ada,37"]) := by decide +kernel
  obtain ⟨⟨answer, w₀⟩, made, ran⟩ := Option.bind_eq_some_iff.mp ran
  obtain ⟨⟨done, w⟩, older, ran⟩ := Option.bind_eq_some_iff.mp ran
  obtain ⟨⟨done', w'⟩, other, ran⟩ := Option.map_eq_some_iff.mp ran
  simp only [Prod.mk.injEq, Bool.and_eq_true, beq_iff_eq] at ran
  obtain ⟨⟨⟨⟨⟨number, fine⟩, fine'⟩, writes⟩, writes'⟩, journal⟩ := ran
  cases answer with
  | error e => cases number
  | ok o =>
    obtain rfl : o = 0 := Option.some.inj number
    cases done with
    | error e => cases fine
    | ok =>
      cases done' with
      | error e => cases fine'
      | ok =>
        have backed : tag.cellAt? "label" = some 6 := by decide +kernel
        have computed : tag.content 6 = .computed tagLabel := rfl
        have start := followed_of_observe (w := { stores := #[tag] }) rfl tag_arises tag_sourced
          (not_namesObject_of_computed backed computed) made
        have named : Course (fun _ _ command => nomatch command) 3 0 0 w₀ (holding w₀) :=
          .elsewhere .start rfl rfl
        have course := tag_course start (tag_course start named writes older) writes' other
        exact ⟨w₀, w, w', made, older, other, journal,
          sources_followed (w := { stores := #[tag] }) rfl tag_arises tag_sourced backed
            computed made course⟩

end ReactiveView
