import ReactiveView.Proofs.Reaction.Assigning

/-! Reading back what was written. While observers write nothing themselves, the data of a store
after a write is what the write makes of it, also if the observers were told of it in between. A
path that was written reads as the value written, with one exception. The last step of a write
takes an index with a plus sign or leading zeros, and reading takes it nowhere: such a path
reads as null. -/
namespace ReactiveView

variable {κ : Type} {perform : Performer κ} {id : StoreId} {effects : Effect κ → Prop}
  {w w' : World κ}

open Run

/-- All observers have effects of a kind. -/
def Watchers (effects : Effect κ → Prop) (w : World κ) : Prop :=
  ∀ (o : ObserverId) observer, w.observers[o]? = some observer → effects observer.effect

/-- Among observers of a kind, the data of a store is as before, and the observers are
of the kind. -/
def Undisturbed (id : StoreId) (effects : Effect κ → Prop) (w w' : World κ) : Prop :=
  ∀ s, w.stores[id]? = some s → s.Plain → Watchers effects w →
    (∃ t, w'.stores[id]? = some t ∧ Store.SameData s t) ∧ Watchers effects w'

/-- Effects of the kind write nothing to the store, and they make no observers of another kind. -/
def Harmless (perform : Performer κ) (id : StoreId) (effects : Effect κ → Prop) : Prop :=
  ∀ effect, effects effect → ∀ new old, Keeps (Undisturbed id effects) (effect.fire perform new old)

theorem composes_undisturbed : Composes (Undisturbed id effects) where
  refl w s here _ watchers := ⟨⟨s, here, .refl s⟩, watchers⟩
  trans first second s here plain watchers := by
    obtain ⟨⟨t, there, same⟩, watchers⟩ := first s here plain watchers
    obtain ⟨⟨u, after, same'⟩, watchers⟩ := second t there (same.plain plain) watchers
    exact ⟨⟨u, after, same.trans same'⟩, watchers⟩

theorem undisturbed_of_same (stores : w'.stores = w.stores)
    (observers : Watchers effects w → Watchers effects w') : Undisturbed id effects w w' :=
  fun s here _ watchers => ⟨⟨s, stores ▸ here, .refl s⟩, observers watchers⟩

theorem undisturbed_pinning {α : Type} {x : Run κ α} (pins : List Pin)
    (inner : Keeps (Undisturbed id effects) x) :
    Keeps (Undisturbed id effects) (pinning pins x) := by
  intro w r w' ran
  obtain ⟨after, answer, rfl⟩ := pinning_eq_some ran
  exact fun s here plain watchers => inner _ _ _ answer s here plain watchers

/-- Reading registers observers and changes no data. -/
theorem undisturbed_resolve (tracker : Option ObserverId) (path : String) :
    Keeps (Undisturbed id effects) (Scope.resolve perform { store := id, tracker } path) := by
  intro w r w' ran s here plain watchers
  rw [Scope.resolve_run perform plain here] at ran
  split at ran
  · obtain ⟨-, rfl⟩ := Prod.mk.inj (Option.some.inj ran)
    exact ⟨⟨s, here, .refl s⟩, watchers⟩
  · obtain ⟨-, rfl⟩ := Prod.mk.inj (Option.some.inj ran)
    exact ⟨⟨_, World.stores_withStore here _, .track tracker (s.cellsAt path) s⟩, watchers⟩

/-- An observer keeps its effect when it keeps a value. -/
theorem Watchers.modify (watchers : Watchers effects w) (o : ObserverId) (v : Value)
    (journal : List Firing) : Watchers effects { w with
      observers := w.observers.modify o fun observer => { observer with value := v }
      journal := journal } := by
  intro p observer found
  rw [Array.getElem?_modify] at found
  split at found
  · obtain ⟨before, was, rfl⟩ := Option.map_eq_some_iff.mp found
    exact watchers p before was
  · exact watchers p observer found

section Passes

variable (harmless : Harmless perform id effects)
include harmless

theorem undisturbed_update (o : ObserverId) :
    Keeps (Undisturbed id effects) (updateObserver perform id o) := by
  intro w r w' ran s here plain watchers
  obtain ⟨observer, looked, known⟩ : ∃ observer, Run.observer o w = some (.ok observer, w) ∧
      (effects observer.effect ∨ observer.effect = .code fun _ _ => pure ()) := by
    refine ⟨_, rfl, ?_⟩
    cases found : w.observers[o]? with
    | none => exact .inr rfl
    | some observer => exact .inl (watchers o observer found)
  unfold updateObserver at ran
  rw [bind_of_ok looked] at ran
  have resolved := Scope.resolve_untracked perform plain here observer.path
  cases read : s.read observer.path with
  | error e =>
    rw [bind_of_error (read ▸ resolved)] at ran
    obtain ⟨-, rfl⟩ := Prod.mk.inj (Option.some.inj ran)
    exact ⟨⟨s, here, .refl s⟩, watchers⟩
  | ok new =>
    rw [bind_of_ok (read ▸ resolved), bind_of_ok looked] at ran
    split at ran
    · obtain ⟨-, rfl⟩ := Prod.mk.inj (Option.some.inj ran)
      exact ⟨⟨s, here, .refl s⟩, watchers⟩
    · have kept := watchers.modify o new (⟨o, new, observer.value⟩ :: w.journal)
      obtain ofKind | idle := known
      · exact harmless _ ofKind new observer.value _ _ _ ran s here plain kept
      · rw [idle] at ran
        obtain ⟨-, rfl⟩ := Prod.mk.inj (Option.some.inj ran)
        exact ⟨⟨s, here, .refl s⟩, kept⟩

theorem undisturbed_notify (observers : List ObserverId) :
    Keeps (Undisturbed id effects) (notify perform id observers) :=
  undisturbed_pinning _ (Keeps.forM composes_undisturbed fun o _ => undisturbed_update harmless o)

end Passes

/-- The worlds that come about from data in a store, observers of a kind and writes from outside.
Writes may fail; whatever else happens leaves the store and the observers alone. -/
inductive Passive (perform : Performer κ) (id : StoreId) (effects : Effect κ → Prop) :
    World κ → Prop
  | start {w : World κ} {data : Value} : data.Canonical → w.stores[id]? = some (.ofValue data) →
      Watchers effects w → Passive perform id effects w
  | watch {w w' : World κ} {path : String} {effect : Effect κ}
      {r : Except BindingError ObserverId} :
      Passive perform id effects w → effects effect →
      observe perform id path effect w = some (r, w') → Passive perform id effects w'
  | assign {w w' : World κ} {path : String} {v : Value} {r : Except BindingError Unit} :
      Passive perform id effects w →
      Scope.assign perform { store := id } path v w = some (r, w') → Passive perform id effects w'
  | elsewhere {w w' : World κ} : Passive perform id effects w →
      w'.stores[id]? = w.stores[id]? → w'.observers = w.observers → Passive perform id effects w'

theorem undisturbed_observe {path : String} {effect : Effect κ} (ofKind : effects effect) :
    Keeps (Undisturbed id effects) (observe perform id path effect) := by
  unfold observe
  split
  · exact Keeps.fail composes_undisturbed _
  · refine Keeps.bind composes_undisturbed (Keeps.world composes_undisturbed) fun before => ?_
    dsimp only
    refine Keeps.bind composes_undisturbed (Keeps.modify fun w => ?_) fun _ => ?_
    · refine undisturbed_of_same rfl fun watchers p observer found => ?_
      rw [Array.getElem?_push] at found
      split at found
      · obtain rfl := Option.some.inj found
        exact ofKind
      · exact watchers p observer found
    · refine Keeps.bind composes_undisturbed
        (undisturbed_pinning _ (undisturbed_resolve _ path)) fun initial => ?_
      refine Keeps.bind composes_undisturbed (Keeps.modify fun w => ?_) fun _ =>
        Keeps.pure composes_undisturbed _
      exact undisturbed_of_same rfl fun watchers => watchers.modify _ initial w.journal

/-- A write fails on the data alone and leaves the world as it was, or the store has the data that
the write makes when all observers have been told, or one of them has failed. -/
theorem assign_undisturbed (harmless : Harmless perform id effects) {s : Store (Computed κ)}
    (tree : s.Tree) (here : w.stores[id]? = some s) (watchers : Watchers effects w) {path : String}
    {v : Value} {r : Except BindingError Unit}
    (ran : Scope.assign perform { store := id } path v w = some (r, w')) :
    (∃ e, s.snapshot.assigned path v = .error e ∧ r = .error e ∧ w' = w) ∨
    ∃ t, w'.stores[id]? = some t ∧ t.Tree ∧ Watchers effects w' ∧
      s.snapshot.assigned path v = .ok t.snapshot := by
  have here' : w.stores[(Scope.mk id none).store]? = some s := here
  obtain ⟨e, wrong, failed⟩ | ⟨t, tree', assigned, -, quiet | ⟨c, -, told⟩⟩ :=
    Scope.assign_snapshot perform tree here' path v
  · obtain ⟨rfl, rfl⟩ := Prod.mk.inj (Option.some.inj (failed.symm.trans ran))
    exact .inl ⟨e, wrong, rfl, rfl⟩
  · obtain ⟨-, rfl⟩ := Prod.mk.inj (Option.some.inj (quiet.symm.trans ran))
    exact .inr ⟨t, World.stores_withStore here t, tree', watchers, assigned⟩
  · have pruned := Store.SameData.setRegistry t c ((t.registry c).prune w.observerAlive)
    obtain ⟨⟨u, there, same⟩, watchers'⟩ := undisturbed_notify harmless _ _ _ _
      (told.symm.trans ran) _ (World.stores_withStore here _) (pruned.plain tree'.plain) watchers
    have all := pruned.trans same
    refine .inr ⟨u, there, all.tree tree', watchers', ?_⟩
    have snapshot : u.snapshot = t.snapshot := by
      rw [Store.snapshot, all.root]
      exact (all.valueOf (.object t.root) :)
    rw [snapshot]
    exact assigned

/-- What a write leaves when it is over: the data that it makes, or the data as it was. -/
theorem assign_passive (harmless : Harmless perform id effects) {s : Store (Computed κ)}
    (tree : s.Tree) (here : w.stores[id]? = some s) (watchers : Watchers effects w) {path : String}
    {v : Value} {r : Except BindingError Unit}
    (ran : Scope.assign perform { store := id } path v w = some (r, w')) :
    ∃ t, w'.stores[id]? = some t ∧ t.Tree ∧ Watchers effects w' ∧
      (r = .ok () → s.snapshot.assigned path v = .ok t.snapshot) := by
  obtain ⟨e, -, rfl, rfl⟩ | ⟨t, there, tree', watchers', assigned⟩ :=
    assign_undisturbed harmless tree here watchers ran
  · exact ⟨s, here, tree, watchers, nofun⟩
  · exact ⟨t, there, tree', watchers', fun _ => assigned⟩

/-- In such a world the store is a tree of cells. -/
theorem Passive.tree (harmless : Harmless perform id effects)
    (passive : Passive perform id effects w) :
    ∃ s, w.stores[id]? = some s ∧ s.Tree ∧ Watchers effects w := by
  induction passive with
  | start canonical here watchers => exact ⟨_, here, Store.tree_ofValue canonical, watchers⟩
  | watch _ ofKind ran ih =>
    obtain ⟨s, here, tree, watchers⟩ := ih
    obtain ⟨⟨t, there, same⟩, watchers⟩ :=
      undisturbed_observe ofKind _ _ _ ran s here tree.plain watchers
    exact ⟨t, there, same.tree tree, watchers⟩
  | assign _ ran ih =>
    obtain ⟨s, here, tree, watchers⟩ := ih
    obtain ⟨t, there, tree, watchers, -⟩ := assign_passive harmless tree here watchers ran
    exact ⟨t, there, tree, watchers⟩
  | elsewhere _ stores observers ih =>
    obtain ⟨s, here, tree, watchers⟩ := ih
    refine ⟨s, stores.trans here, tree, fun o observer found => watchers o observer ?_⟩
    rwa [observers] at found

/-- The effect writes to a node of a document. -/
def Effect.Shows : Effect κ → Prop
  | .formValue _ | .html _ | .text _ => True
  | .template _ _ _ | .code _ | .viewCode _ _ => False

theorem harmless_shows : Harmless perform id Effect.Shows := by
  intro effect shows new old
  have edited :
      ∀ (d : DocumentId) (f : (NodeId → Bool) → Document (Listener κ) → Document (Listener κ)),
      Keeps (Undisturbed id Effect.Shows) (Run.edit d f) := fun d f =>
    Keeps.modify fun w => undisturbed_of_same rfl fun watchers => watchers
  cases effect with
  | formValue target =>
    exact edited target.document fun _ doc => doc.setValue target.node new.propertyText
  | html target =>
    exact edited target.document fun held doc => doc.setInnerHtml held target.node new.propertyText
  | text target =>
    exact edited target.document fun held doc =>
      doc.setTextContent held target.node new.propertyText
  | _ => cases shows

def shelf : Value :=
  .object [("items", .array [.bool false, .bool true]), ("name", .string "old")]

def shelfWorld : World Empty :=
  { documents := #[.empty], stores := #[.ofValue shelf] }

/-- User code may call the library, and nothing else is there to be commanded. -/
def shelfPerformer : Performer Empty :=
  performer (fun _ _ command => nomatch command) 1

theorem shelf_passive : Passive shelfPerformer 0 Effect.Shows shelfWorld := by
  have canonical : shelf.Canonical := by
    refine ⟨?_, ⟨trivial, trivial, trivial⟩, trivial, trivial⟩
    exact .cons (by decide) (.cons (by decide) .nil)
  have here : shelfWorld.stores[0]? = some (.ofValue shelf) := rfl
  refine .start canonical here fun o observer found => ?_
  cases found

/-- After a write that succeeds its path reads as the value written, unless the path misspells an
index of an array. Then the path reads as null. -/
theorem read_after_write (harmless : Harmless perform id effects)
    (passive : Passive perform id effects w) {path : String} {v : Value}
    (ran : Scope.assign perform { store := id } path v w = some (.ok (), w')) :
    ∃ s u, w.stores[id]? = some s ∧
      Scope.resolve perform { store := id } path w' = some (.ok u, w') ∧
      (s.snapshot.Misspells (Path.pieces path) → u = .null) ∧
      (¬ s.snapshot.Misspells (Path.pieces path) → u.strictEq v = true) := by
  obtain ⟨s, here, tree, watchers⟩ := passive.tree harmless
  obtain ⟨t, there, tree', -, assigned⟩ := assign_passive harmless tree here watchers ran
  obtain ⟨u, read, misspelt, spelt⟩ := Value.read_assigned (assigned rfl)
  refine ⟨s, u, here, Scope.resolve_of_read perform tree'.plain there ?_, misspelt, spelt⟩
  rw [Store.read_snapshot tree', read]

/-- An observer whose effect shows the name in a form is told of the write in between. -/
theorem shelf_reads_back : ∃ w w' : World Empty,
    Passive shelfPerformer 0 Effect.Shows w ∧
    w.observerAlive 0 = true ∧
    Scope.assign shelfPerformer { store := 0 } "name" (.string "new") w = some (.ok (), w') ∧
    ∃ s u, w.stores[0]? = some s ∧
      Scope.resolve shelfPerformer { store := 0 } "name" w' = some (.ok u, w') ∧
      (s.snapshot.Misspells (Path.pieces "name") → u = .null) ∧
      (¬ s.snapshot.Misspells (Path.pieces "name") → u.strictEq (.string "new") = true) := by
  have told : ((observe shelfPerformer 0 "name" (.formValue ⟨0, 0⟩) shelfWorld).bind fun made =>
      (Scope.assign shelfPerformer { store := 0 } "name" (.string "new")
        { made.2 with names := { observers := [("form", 0)] } }).map (·.1.isOk)) =
          some true := by decide +kernel
  obtain ⟨⟨r, w⟩, watched, told⟩ := Option.bind_eq_some_iff.mp told
  obtain ⟨⟨r', w'⟩, ran, fine⟩ := Option.map_eq_some_iff.mp told
  cases r' with
  | error e => cases fine
  | ok done =>
    have passive : Passive shelfPerformer 0 Effect.Shows
        { w with names := { observers := [("form", 0)] } } :=
      .elsewhere (.watch shelf_passive (show Effect.Shows (.formValue ⟨0, 0⟩) from trivial) watched)
        rfl rfl
    exact ⟨_, w', passive, rfl, ran, read_after_write harmless_shows passive ran⟩

theorem misspelt_index_reads_null : ∃ w w' : World Empty,
    Passive shelfPerformer 0 Effect.Shows w ∧
    Scope.assign shelfPerformer { store := 0 } "items.01" (.string "lead") w = some (.ok (), w') ∧
    Scope.resolve shelfPerformer { store := 0 } "items.01" w' = some (.ok .null, w') ∧
    Value.null.strictEq (.string "lead") = false :=
  ⟨shelfWorld, _, shelf_passive, rfl, rfl, rfl⟩

end ReactiveView
