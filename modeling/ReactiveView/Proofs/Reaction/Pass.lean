import ReactiveView.Proofs.Reaction.Pending

/-! Passes: what updating one observer, updating all observers of a cell and writing a cell do to
the observers that are pending. A write puts the observers whose paths pass the cell into a pass of
their own; the other paths read as before. -/
namespace ReactiveView

variable {κ : Type} {id : StoreId} {live pending : ObserverId → Prop} {w w' : World κ}
variable {perform : Performer κ}

open Run

/-- An observer that kept a value is up to date if its path still has this value. -/
theorem Attended.setObserved {s : Store (Computed κ)} {o : ObserverId} {new : Value}
    (here : w.stores[id]? = some s)
    (read : ∀ observer, w.observers[o]? = some observer → s.read observer.path = .ok new)
    (attended : Attended id live (fun p => p = o ∨ pending p) w) (journal : List Firing) :
    Attended id live pending { w with
      observers := w.observers.modify o fun observer => { observer with value := new }
      journal := journal } := by
  obtain ⟨s', here', plain, sound, all⟩ := attended
  obtain rfl := Option.some.inj (here.symm.trans here')
  refine ⟨s, here, plain, sound, fun p isLive => ?_⟩
  obtain ⟨observer, watched⟩ := all p isLive
  have alive := (World.observerAlive_congr rfl rfl rfl p).trans watched.alive
  by_cases same : o = p
  · subst same
    have found : (w.observers.modify o fun observer => { observer with value := new })[o]? =
        some { observer with value := new } := by
      simp [Array.getElem?_modify, watched.found]
    exact ⟨_, found, alive, watched.registered,
      .inr (.inr ⟨new, read observer watched.found, Value.strictEq_self new⟩)⟩
  · have found : (w.observers.modify o fun observer => { observer with value := new })[p]? =
        some observer := by
      simp [Array.getElem?_modify, same, watched.found]
    exact ⟨observer, found, alive, watched.registered,
      watched.current.imp_left fun pends => pends.resolve_left (Ne.symm same)⟩

/-- An update reads the path again, and it is over if the path does not read or if the value is
equal to the one last seen. Else the new value is kept before the effect starts. -/
theorem updateObserver_run (perform : Performer κ) {s : Store (Computed κ)} (plain : s.Plain)
    (here : w.stores[id]? = some s) (o : ObserverId) :
    ∃ observer, (∀ found, w.observers[o]? = some found → found = observer) ∧
      updateObserver perform id o w = match s.read observer.path with
        | .error e => some (.error e, w)
        | .ok new =>
          if observer.value.strictEq new then some (.ok (), w)
          else observer.effect.fire perform new observer.value { w with
            observers := w.observers.modify o fun observer => { observer with value := new }
            journal := ⟨o, new, observer.value⟩ :: w.journal } := by
  obtain ⟨observer, looked, known⟩ := observer_run o w
  refine ⟨observer, known, ?_⟩
  unfold updateObserver
  rw [bind_of_ok looked]
  have resolved := Scope.resolve_untracked perform plain here observer.path
  cases read : s.read observer.path with
  | error e => rw [bind_of_error (read ▸ resolved)]
  | ok new =>
    rw [bind_of_ok (read ▸ resolved), bind_of_ok looked]
    dsimp only
    split <;> rfl

theorem updateObserver_eq_ok {s : Store (Computed κ)} (plain : s.Plain)
    (here : w.stores[id]? = some s) {o : ObserverId}
    (ran : updateObserver perform id o w = some (.ok (), w')) :
    ∃ new observer, (∀ found, w.observers[o]? = some found → found = observer) ∧
      s.read observer.path = .ok new ∧
      (observer.value.strictEq new = true ∧ w' = w ∨ observer.value.strictEq new = false ∧
        observer.effect.fire perform new observer.value { w with
          observers := w.observers.modify o fun observer => { observer with value := new }
          journal := ⟨o, new, observer.value⟩ :: w.journal } = some (.ok (), w')) := by
  obtain ⟨observer, known, update⟩ := updateObserver_run perform plain here o
  rw [update] at ran
  split at ran
  · cases ran
  · rename_i new read
    refine ⟨new, observer, known, read, ?_⟩
    split at ran
    · rename_i equal
      exact .inl ⟨equal, (Prod.mk.inj (Option.some.inj ran)).2.symm⟩
    · rename_i differs
      exact .inr ⟨Bool.eq_false_iff.mpr differs, ran⟩

/-- An update without failure takes its observer off what is pending. -/
theorem updateObserver_attended (calls : ∀ c, Keeps (Tends id live) (perform c)) {o : ObserverId}
    (ran : updateObserver perform id o w = some (.ok (), w'))
    (attended : Attended id live (fun p => p = o ∨ pending p) w) :
    Steady w w' ∧ Attended id live pending w' := by
  have ⟨s, here, plain, sound, all⟩ := attended
  obtain ⟨new, observer, known, read, ⟨equal, rfl⟩ | ⟨-, fired⟩⟩ :=
    updateObserver_eq_ok plain here ran
  · refine ⟨Steady.refl w', s, here, plain, sound, fun p isLive => ?_⟩
    obtain ⟨found, watched⟩ := all p isLive
    refine ⟨found, watched.found, watched.alive, watched.registered, ?_⟩
    by_cases same : p = o
    · subst same
      obtain rfl := known found watched.found
      exact .inr (.inr ⟨new, read, equal⟩)
    · exact watched.current.imp_left fun pends => pends.resolve_left same
  · have kept := attended.setObserved here (fun found same => known found same ▸ read)
      (⟨o, new, observer.value⟩ :: w.journal)
    obtain ⟨steady, ended⟩ := keeps_fire calls observer.effect new observer.value _ _ _ fired _ kept
    exact ⟨⟨steady.names, steady.pins, steady.views,
      steady.observers.trans Array.size_modify⟩, ended⟩

theorem updateAll_attended (calls : ∀ c, Keeps (Tends id live) (perform c))
    {observers : List ObserverId}
    (ran : observers.forM (updateObserver perform id) w = some (.ok (), w'))
    (attended : Attended id live (fun p => p ∈ observers ∨ pending p) w) :
    Steady w w' ∧ Attended id live pending w' := by
  induction observers generalizing w with
  | nil =>
    obtain ⟨-, rfl⟩ := Prod.mk.inj (Option.some.inj ran)
    exact ⟨Steady.refl _, attended.mono fun p pends => pends.resolve_left List.not_mem_nil⟩
  | cons o rest ih =>
    obtain ⟨_, w₁, first, ran⟩ := bind_eq_ok ran
    have before : Attended id live (fun p => p = o ∨ (p ∈ rest ∨ pending p)) w :=
      attended.mono fun p pends => by simpa [or_assoc] using pends
    obtain ⟨steady, between⟩ := updateObserver_attended calls first before
    obtain ⟨steady', ended⟩ := ih ran between
    exact ⟨steady.trans steady', ended⟩

/-- A pass without failure takes all its observers off what is pending. -/
theorem notify_attended (calls : ∀ c, Keeps (Tends id live) (perform c))
    {observers : List ObserverId} (ran : notify perform id observers w = some (.ok (), w'))
    (attended : Attended id live (fun p => p ∈ observers ∨ pending p) w) :
    Steady w w' ∧ Attended id live pending w' := by
  obtain ⟨after, answer, rfl⟩ := pinning_eq_some ran
  have pinned := attended.pinned (observers.map .observer)
  obtain ⟨steady, ended⟩ := updateAll_attended calls answer pinned
  exact attended.unpinned steady ended

/-- A write to a cell leaves pending only those observers that it puts into its pass. -/
theorem Attended.overwrite {s : Store (Computed κ)} {c : CellId} (here : w.stores[id]? = some s)
    (inside : c < s.cells.size) (notRoot : c ≠ s.root) (v : Value)
    (attended : Attended id live pending w) :
    Attended id live
      (fun p => p ∈ ((s.registry c).prune w.observerAlive).entries ∨ pending p)
      (w.withStore id (s.overwrite c v w.observerAlive)) := by
  obtain ⟨s', here', plain, sound, all⟩ := attended
  obtain rfl := Option.some.inj (here.symm.trans here')
  have wrote := Store.overwrites_overwrite inside v w.observerAlive
  refine ⟨_, World.stores_withStore here _, wrote.plain plain, wrote.sound sound notRoot,
    fun o isLive => ?_⟩
  obtain ⟨observer, watched⟩ := all o isLive
  have steady : Steady w (w.withStore id (s.overwrite c v w.observerAlive)) := ⟨rfl, rfl, rfl, rfl⟩
  refine ⟨observer, watched.found, (steady.alive o).trans watched.alive, fun a passed =>
    Store.mem_registry_overwrite watched.alive
      (watched.registered a (wrote.mem_cellsAt plain passed)), ?_⟩
  by_cases passes : c ∈ s.cellsAt observer.path
  · exact .inl (.inl (List.mem_filter.mpr ⟨watched.registered c passes, watched.alive⟩))
  · by_cases names : s.NamesObject observer.path
    · exact .inr (.inl (wrote.namesObject_elsewhere plain notRoot passes names))
    · refine watched.current.imp .inr fun settled => .inr ?_
      obtain ⟨u, read, equal⟩ := settled.resolve_left names
      exact ⟨u, (wrote.read_elsewhere plain notRoot passes names).trans read, equal⟩

/-- Whether a cell backs the property at a path. -/
def World.backs (w : World κ) (id : StoreId) (path : String) : Bool :=
  (w.stores[id]?.bind (·.cellAt? path)).isSome

theorem World.cellAt?_of_backs {s : Store (Computed κ)} (here : w.stores[id]? = some s)
    {path : String} (backed : w.backs id path = true) : ∃ c, s.cellAt? path = some c := by
  simpa [World.backs, here, Option.isSome_iff_exists] using backed

/-- A write without failure to a path that a cell backs leaves no observer behind. -/
theorem assign_attended (calls : ∀ c, Keeps (Tends id live) (perform c)) {path : String} {v : Value}
    (backed : w.backs id path = true)
    (ran : Scope.assign perform { store := id } path v w = some (.ok (), w')) :
    Tends id live w w' := by
  intro pending attended
  have ⟨s, here, plain, sound, _⟩ := attended
  obtain ⟨c, found⟩ := World.cellAt?_of_backs here backed
  obtain ⟨-, rfl⟩ | ⟨-, told⟩ := Scope.assign_eq_ok perform (plain c) here found ran
  · exact ⟨Steady.refl w', attended⟩
  · obtain ⟨inside, notRoot⟩ := Store.cellAt?_sound sound found
    obtain ⟨steady, ended⟩ := notify_attended calls told (attended.overwrite here inside notRoot v)
    exact ⟨⟨steady.names, steady.pins, steady.views, steady.observers⟩, ended⟩

end ReactiveView
