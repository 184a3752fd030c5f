import ReactiveView.Proofs.Reaction.Order

/-! Observers are never left behind. On a store without computed properties, as long as every write
of a run goes to a path that a cell backs and no update and no effect fails, every live observer
has the current value of its path whenever a write from outside has returned. Effects may write to
the store again, nested to any depth. -/
namespace ReactiveView

variable {κ : Type} {id : StoreId} {first : ObserverId} {w w' : World κ}

open Run

/-- What happens to a store from outside: observers come, values are written, observers go. -/
inductive Deed (κ : Type) where
  | watch (name path : String) (effect : Effect κ)
  | assign (path : String) (value : Value)
  | drop (name : String)

/-- The world with other names of observers. -/
def World.naming (w : World κ) (observers : List (String × ObserverId)) : World κ :=
  { w with names := { w.names with observers } }

/-- A named observer is alive as long as nothing else takes its name. -/
def Deed.run (perform : Performer κ) (id : StoreId) : Deed κ → Run κ Unit
  | .watch name path effect => do
    let o ← observe perform id path effect
    Run.modify fun w => w.naming (Entries.set name o w.names.observers)
  | .assign path value => do
    let _ ← Run.attempt (perform (.write (.scope { store := id }) path value))
    return
  | .drop name =>
    Run.modify fun w => w.naming (w.names.observers.filter (·.1 != name))

theorem Deed.run_below {perform perform' : Performer κ}
    (calls : ∀ c, Below (perform c) (perform' c)) (deed : Deed κ) :
    Below (deed.run perform id) (deed.run perform' id) := by
  cases deed with
  | watch name path effect =>
    exact Below.bind (observe_below calls id path effect) fun _ => Below.refl _
  | assign path value => exact Below.bind (Below.attempt (calls _)) fun _ => Below.refl _
  | drop name => exact Below.refl _

/-- Observers made since a certain one that are alive. -/
def World.alive (w : World κ) (first o : ObserverId) : Prop :=
  first ≤ o ∧ o < w.observers.size ∧ w.observerAlive o = true

/-- An observer that no new name refers to was alive before. -/
theorem World.alive_of_naming {observers : List (String × ObserverId)} {o : ObserverId}
    (older : ∀ e ∈ observers, e.2 = o → e ∈ w.names.observers)
    (alive : (w.naming observers).observerAlive o = true) : w.observerAlive o = true := by
  simp only [World.observerAlive, Bool.or_eq_true] at alive ⊢
  refine alive.imp_left (Or.imp_left fun named => ?_)
  obtain ⟨e, member, same⟩ := List.any_eq_true.mp named
  exact List.any_eq_true.mpr ⟨e, older e member (beq_iff_eq.mp same), same⟩

@[simp] theorem World.stores_naming (w : World κ) (observers : List (String × ObserverId)) :
    (w.naming observers).stores = w.stores := rfl

@[simp] theorem World.observers_naming (w : World κ) (observers : List (String × ObserverId)) :
    (w.naming observers).observers = w.observers := rfl

theorem modify_push {α : Type} (xs : Array α) (a : α) (f : α → α) :
    (xs.push a).modify xs.size f = xs.push (f a) := by
  apply Array.ext_getElem?
  intro i
  by_cases last : i = xs.size
  · subst last
    rw [Array.getElem?_modify]
    simp
  · simp [Array.getElem?_modify, Array.getElem?_push, last, Ne.symm last]

/-- The world with one more observer, registered in a store. -/
def World.observing (w : World κ) (id : StoreId) (s : Store (Computed κ)) (observer : Observer κ) :
    World κ :=
  { w.withStore id s with observers := w.observers.push observer }

/-- A new observer has a place before its path is read, and its value afterwards. -/
theorem observe_run (perform : Performer κ) (id : StoreId) {path : String}
    (filled : Path.isEmpty path = false) (effect : Effect κ) (w : World κ) :
    observe perform id path effect w =
      (Run.pinning [.observer w.observers.size]
        (Scope.resolve perform { store := id, tracker := some w.observers.size } path) >>=
          fun initial => do
            Run.setObserved w.observers.size initial
            return w.observers.size) { w with observers := w.observers.push { path, effect } } := by
  unfold observe
  rw [filled]
  rfl

/-- Unless its path is blank, an observer is made and registered where the path passes, also if the
path does not read. -/
theorem observe_eq_some {perform : Performer κ} {s : Store (Computed κ)} (plain : s.Plain)
    (here : w.stores[id]? = some s) {path : String} {effect : Effect κ}
    {r : Except BindingError ObserverId} (ran : observe perform id path effect w = some (r, w')) :
    (∃ e, r = .error e) ∧ w' = w ∨
    ∃ value,
      w' = w.observing id (s.track (some w.observers.size) (s.cellsAt path))
        { path, value, effect } ∧
      ∀ o, r = .ok o → o = w.observers.size ∧ s.read path = .ok value := by
  cases blank : Path.isEmpty path with
  | true =>
    unfold observe at ran
    rw [blank] at ran
    obtain ⟨rfl, rfl⟩ := Prod.mk.inj (Option.some.inj ran)
    exact .inl ⟨⟨_, rfl⟩, rfl⟩
  | false =>
    have split : Path.segments path = .ok (Path.pieces path) := by
      simp only [Path.segments, blank, Bool.false_eq_true, if_false]
    rw [observe_run perform id blank] at ran
    obtain ⟨e, failed, rfl⟩ | ⟨initial, w₁, resolved, ran⟩ := bind_eq_some ran
    · obtain ⟨after, answer, rfl⟩ := pinning_eq_some failed
      rw [Scope.resolve_run perform plain here, split] at answer
      obtain ⟨-, rfl⟩ := Prod.mk.inj (Option.some.inj answer)
      exact .inr ⟨.null, rfl, by rintro _ ⟨⟩⟩
    · obtain ⟨after, answer, rfl⟩ := pinning_eq_some resolved
      rw [Scope.resolve_run perform plain here, split] at answer
      obtain ⟨read, rfl⟩ := Prod.mk.inj (Option.some.inj answer)
      obtain ⟨rfl, rfl⟩ := Prod.mk.inj (Option.some.inj ran)
      have last := modify_push w.observers { path, effect }
        fun observer => { observer with value := initial }
      refine .inr ⟨initial, ?_, fun o same => ⟨(Except.ok.inj same).symm, read⟩⟩
      exact congrArg (fun observers => { w.withStore id (s.track (some w.observers.size)
        (s.cellsAt path)) with observers := observers }) last

/-- Making an observer keeps the value that its path has, and registers it where the path passes. -/
theorem observe_eq_ok {perform : Performer κ} {s : Store (Computed κ)} (plain : s.Plain)
    (here : w.stores[id]? = some s) {path : String} {effect : Effect κ} {o : ObserverId}
    (ran : observe perform id path effect w = some (.ok o, w')) :
    ∃ initial, s.read path = .ok initial ∧ o = w.observers.size ∧
      w' = w.observing id (s.track (some o) (s.cellsAt path))
        { path, value := initial, effect } := by
  obtain ⟨⟨_, wrong⟩, -⟩ | ⟨initial, rfl, made⟩ := observe_eq_some plain here ran
  · cases wrong
  · obtain ⟨rfl, read⟩ := made o rfl
    exact ⟨initial, read, rfl, rfl⟩

/-- The observers made since a certain one that are alive have nothing to come. -/
def Tended (id : StoreId) (first : ObserverId) (w : World κ) : Prop :=
  Attended id (w.alive first) (fun _ => False) w

/-- The world with one more observer under a name, registered where its path passes. -/
def World.watching (w : World κ) (id : StoreId) (s : Store (Computed κ)) (name : String)
    (observer : Observer κ) : World κ :=
  (w.observing id (s.track (some w.observers.size) (s.cellsAt observer.path)) observer).naming
    (Entries.set name w.observers.size w.names.observers)

/-- A new observer is watched as soon as it has a name, and the others are as before. -/
theorem Tended.watching {s : Store (Computed κ)} (tended : Tended id first w)
    (here : w.stores[id]? = some s) {observer : Observer κ} (current : observer.Current s)
    (name : String) : Tended id first (w.watching id s name observer) := by
  have ⟨s', here', plain, sound, _⟩ := tended
  obtain rfl := Option.some.inj (here.symm.trans here')
  have there : (w.watching id s name observer).stores[id]? = _ := World.stores_withStore here _
  have same := Store.SameData.track (some w.observers.size) (s.cellsAt observer.path) s
  have older : ∀ (o : ObserverId) (p : Observer κ), w.observers[o]? = some p →
      (w.watching id s name observer).observers[o]? = some p := fun o p found =>
    (Array.getElem?_push_lt (Array.getElem?_eq_some_iff.mp found).1).trans
      (congrArg some (Array.getElem?_eq_some_iff.mp found).2)
  have kept : Attended id (fun o => w.alive first o ∧
      (w.watching id s name observer).observerAlive o = true) (fun _ => False)
      (w.watching id s name observer) :=
    (tended.join here fun o both => .inl both.1).transport here there same
      (fun c o registered => Store.mem_registry_track (.inl registered)) older fun o both _ =>
        both.2
  refine kept.join there fun o ⟨since, inside, alive⟩ => ?_
  by_cases new : o = w.observers.size
  · subst new
    obtain ⟨v, read, equal⟩ := current
    refine .inr ⟨observer, Array.getElem?_push_size, alive, fun c passed => ?_,
      .inr (.inr ⟨v, (same.read _).trans read, equal⟩)⟩
    rw [same.cellsAt] at passed
    exact Store.mem_registry_track (.inr ⟨rfl, passed, Store.cellsOn_inside plain sound passed⟩)
  · have before : o < w.observers.size := by
      simp only [World.watching, World.observers_naming, World.observing, Array.size_push] at inside
      exact Nat.lt_of_le_of_ne (Nat.le_of_lt_succ inside) new
    have was := World.alive_of_naming (fun e member same =>
      (Entries.mem_set member).resolve_left fun newer => new (same.symm.trans newer)) alive
    exact .inl ⟨⟨since, before, was⟩, alive⟩

theorem Tended.drop (tended : Tended id first w) (name : String) :
    Tended id first (w.naming (w.names.observers.filter (·.1 != name))) := by
  have was : ∀ o, (w.naming (w.names.observers.filter (·.1 != name))).alive first o →
      w.alive first o := fun o ⟨since, inside, alive⟩ =>
    ⟨since, inside, World.alive_of_naming (fun e member _ => (List.mem_filter.mp member).1) alive⟩
  have ⟨s, here, _⟩ := tended
  have kept := tended.join here (fun o isAlive => .inl (was o isAlive))
  exact kept.congr rfl rfl fun o isAlive _ => isAlive.2.2

theorem Tended.assign {path : String} {v : Value}
    {r : Except BindingError Value} (tended : Tended id first w) {levels : Nat}
    (ran : orderly id levels (.write (.scope { store := id }) path v) w = some (r, w')) :
    Tended id first w' ∧ w'.observers.size = w.observers.size := by
  obtain ⟨steady, kept⟩ := orderly_keeps levels _ w r w' ran _ tended
  have ⟨s, there, _⟩ := kept
  refine ⟨kept.join there fun o ⟨since, inside, alive⟩ => .inl ⟨since, ?_, ?_⟩, steady.observers⟩
  · rwa [steady.observers] at inside
  · rwa [steady.alive] at alive

/-- Everything that happens from outside leaves nothing to come. -/
theorem Deed.run_tended {deed : Deed κ} {levels : Nat}
    (ran : deed.run (orderly id levels) id w = some (.ok (), w')) (tended : Tended id first w) :
    Tended id first w' ∧ w.observers.size ≤ w'.observers.size := by
  have ⟨s, here, plain, _⟩ := tended
  cases deed with
  | watch name path effect =>
    obtain ⟨o, w₁, made, named⟩ := bind_eq_ok ran
    obtain ⟨initial, read, rfl, rfl⟩ := observe_eq_ok plain here made
    obtain ⟨-, rfl⟩ := Prod.mk.inj (Option.some.inj named)
    have current : Observer.Current { path, value := initial, effect } s :=
      ⟨initial, read, Value.strictEq_self initial⟩
    exact ⟨tended.watching here current name, by simp [World.observing]⟩
  | assign path v =>
    obtain ⟨_, w₁, tried, ended⟩ := bind_eq_ok ran
    obtain ⟨-, rfl⟩ := Prod.mk.inj (Option.some.inj ended)
    obtain ⟨⟨r, _⟩, answer, same⟩ := Option.map_eq_some_iff.mp tried
    obtain ⟨-, rfl⟩ := Prod.mk.inj same
    obtain ⟨kept, size⟩ := tended.assign answer
    exact ⟨kept, Nat.le_of_eq size.symm⟩
  | drop name =>
    obtain ⟨-, rfl⟩ := Prod.mk.inj (Option.some.inj ran)
    exact ⟨tended.drop name, Nat.le_refl _⟩

theorem Deed.all_tended {deeds : List (Deed κ)} {levels : Nat}
    (ran : deeds.forM (Deed.run (orderly id levels) id) w = some (.ok (), w'))
    (tended : Tended id first w) : Tended id first w' := by
  induction deeds generalizing w with
  | nil =>
    obtain ⟨-, rfl⟩ := Prod.mk.inj (Option.some.inj ran)
    exact tended
  | cons deed rest ih =>
    obtain ⟨_, w₁, done, ran⟩ := bind_eq_ok ran
    exact ih ran (Deed.run_tended done tended).1

theorem tended_start {s : Store (Computed κ)} (here : w.stores[id]? = some s)
    (reachable : s.Reachable) (plain : s.Plain) : Tended id w.observers.size w :=
  ⟨s, here, plain, reachable.sound, fun _ isAlive =>
    (Nat.not_lt_of_le isAlive.1 isAlive.2.1).elim⟩

/-- Whatever happens to a plain store from outside, as long as all calls are in order, every live
observer that was made meanwhile and whose path names no object has the value that its path reads
as. A host carries out what happens in the same way as if it watched over the order. -/
theorem observers_current (host : Nat → Performer κ → κ → Run κ Unit) (levels : Nat)
    {s : Store (Computed κ)} (here : w.stores[id]? = some s) (reachable : s.Reachable)
    (plain : s.Plain) {deeds : List (Deed κ)}
    (ran : deeds.forM (Deed.run (orderly id levels) id) w = some (.ok (), w')) :
    deeds.forM (Deed.run (performer host levels) id) w = some (.ok (), w') ∧
    ∀ (o : ObserverId) observer t, w'.observers[o]? = some observer → w.observers.size ≤ o →
      w'.observerAlive o = true → w'.stores[id]? = some t → ¬ t.NamesObject observer.path →
      ∃ v, Scope.resolve (performer host levels) { store := id } observer.path w' =
        some (.ok v, w') ∧ observer.value.strictEq v = true := by
  refine ⟨Below.forM (Deed.run_below (orderly_below host levels)) deeds w _ ran,
    fun o observer t found since alive there notObject => ?_⟩
  obtain ⟨t', there', plain, -, all⟩ := Deed.all_tended ran (tended_start here reachable plain)
  obtain rfl := Option.some.inj (there.symm.trans there')
  obtain ⟨_, watched⟩ := all o ⟨since, (Array.getElem?_eq_some_iff.mp found).1, alive⟩
  obtain rfl := Option.some.inj (found.symm.trans watched.found)
  obtain ⟨v, read, equal⟩ :=
    (watched.current.resolve_left fun never => never).resolve_left notObject
  exact ⟨v, Scope.resolve_of_read _ plain there read, equal⟩

def echoData : Value :=
  .object [("a", .string ""), ("b", .object [("c", .string "")])]

/-- The effect of the observer of one path writes the new value to the path of the other. -/
def echo : List (Deed Empty) :=
  [.watch "left" "a" (.code fun new _ => do
      let _ ← Program.ask (.write (.scope { store := 0 }) "b.c" new)),
    .watch "right" "b.c" (.code fun _ _ => pure ()),
    .assign "a" (.string "told")]

theorem echo_current : ∃ w' : World Empty,
    echo.forM (Deed.run (orderly 0 3) 0) { stores := #[.ofValue echoData] } =
      some (.ok (), w') ∧
    w'.observers.toList.map (·.value.strictEq (.string "told")) = [true, true] ∧
    ∀ (o : ObserverId) observer t, w'.observers[o]? = some observer → 0 ≤ o →
      w'.observerAlive o = true → w'.stores[0]? = some t → ¬ t.NamesObject observer.path →
      ∃ v, Scope.resolve (performer (fun _ _ command => nomatch command) 3) { store := 0 }
        observer.path w' = some (.ok v, w') ∧ observer.value.strictEq v = true := by
  have told : (echo.forM (Deed.run (orderly 0 3) 0) { stores := #[.ofValue echoData] }).map
      (fun r => (r.1.isOk, r.2.observers.toList.map (·.value.strictEq (.string "told")))) =
        some (true, [true, true]) := by decide +kernel
  obtain ⟨⟨r, w'⟩, ran, same⟩ := Option.map_eq_some_iff.mp told
  obtain ⟨fine, values⟩ := Prod.mk.inj same
  cases r with
  | error e => cases fine
  | ok done =>
    have current := observers_current (fun _ _ command => nomatch command) 3 rfl
      (.ofValue echoData) (Store.content_ofValue echoData) ran
    exact ⟨w', ran, values, current.2⟩

end ReactiveView
