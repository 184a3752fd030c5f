import ReactiveView.Proofs.Reaction.Assigning
import ReactiveView.Proofs.Store.Listing
import ReactiveView.Proofs.View.Drawing

/-! Views that are bound to their data and to nothing else. Only their bindings are registered in
the store, each of them on the way along its own path, so a write of a path tells only bindings
whose paths begin with it. -/
namespace ReactiveView

variable {κ : Type} {perform : Performer κ} {id : StoreId} {v : ViewId}

namespace World

open Run

variable {w w' : World κ} {s : Store (Computed κ)}

/-- The observer is registered in the store of the view. -/
def Registered (w : World κ) (v : ViewId) (o : ObserverId) : Prop :=
  ∃ id s c, w.Shows id v ∧ w.stores[id]? = some s ∧ o ∈ (s.registry c).entries

/-- The observer has the effect of a binding, and a path that begins with the keys. What is
registered in the store of the view and watches is a binding of the view. -/
def Watches (w : World κ) (v : ViewId) (keys : List String) (o : ObserverId) : Prop :=
  ∃ path effect, w.Observed o path effect ∧ keys <+: Path.pieces path ∧ effect.Binds v

/-- The view shows data from the store, which forms a tree, and nobody else watches the data. -/
structure Serves (id : StoreId) (v : ViewId) (w : World κ) : Prop where
  shows : w.Shows id v
  store : ∃ s, w.stores[id]? = some s ∧ s.Tree ∧ s.Lists (w.Watches v)
  intact : w.Intact

theorem Watches.later
    (observed : ∀ o path effect, w.Observed o path effect → w'.Observed o path effect)
    {keys : List String} {o : ObserverId} (watches : w.Watches v keys o) : w'.Watches v keys o := by
  obtain ⟨path, effect, isObserved, begins, binds⟩ := watches
  exact ⟨path, effect, observed o path effect isObserved, begins, binds⟩

namespace Serves

/-- Whatever leaves the view, its store and its observers alone, and the references in order. -/
theorem aside (serves : Serves id v w) (intact : w'.Intact) (shows : w.Shows id v → w'.Shows id v)
    (stores : w'.stores[id]? = w.stores[id]?)
    (observed : ∀ o path effect, w.Observed o path effect → w'.Observed o path effect) :
    Serves id v w' := by
  obtain ⟨s, here, tree, lists⟩ := serves.store
  refine ⟨shows serves.shows, ⟨s, stores.trans here, tree, ?_⟩, intact⟩
  exact lists.mono fun _ _ => Watches.later observed

theorem still (serves : Serves id v w) (intact : w'.Intact) (views : w'.views = w.views)
    (stores : w'.stores = w.stores) (observers : w'.observers = w.observers) : Serves id v w' := by
  apply serves.aside intact
  · simp only [Shows, views, imp_self]
  · rw [stores]
  · simp only [Observed, observers, imp_self, implies_true]

/-- The world with another store in its place refers to the same. -/
theorem withStore_intact (intact : w.Intact) (id : StoreId) (t : Store (Computed κ)) :
    (w.withStore id t).Intact :=
  intact.fewer (.of_pins rfl (fun _ pinned => pinned) rfl fun _ _ _ observed => observed) rfl

/-- A write of a path comes to an end. It replaces the data, tells some living bindings with paths
that begin with it, and what they draw is all that happens. -/
theorem assign_drawn (serves : Serves id v w) (perform : Performer κ) (path : String)
    (value : Value) :
    ∃ (r : Except BindingError Unit) (w' : World κ) (t : Store (Computed κ))
      (told : List ObserverId),
      Scope.assign perform { store := id } path value w = some (r, w') ∧
      t.Tree ∧ t.Lists (w.Watches v) ∧
      (∀ o ∈ told, w.observerAlive o = true ∧ w.Registered v o ∧
        w.Watches v (Path.pieces path) o) ∧
      Drawn told (w.withStore id t) w' ∧ w'.pins = w.pins := by
  obtain ⟨s, here, tree, lists⟩ := serves.store
  have here' : w.stores[(Scope.mk id none).store]? = some s := here
  obtain ⟨e, -, failed⟩ | ⟨t, tree', -, ⟨⟨place, key, rfl⟩, registry⟩, quiet | ⟨c, backed, told⟩⟩ :=
    Scope.assign_snapshot perform tree here' path value
  · refine ⟨_, w, s, [], failed, tree, lists, nofun, ?_, rfl⟩
    rw [World.withStore_self here]
    exact .refl serves.intact
  · exact ⟨_, _, _, [], quiet, tree', lists.write tree.sound place key value, nofun,
      .refl (withStore_intact serves.intact id _), rfl⟩
  · have written := lists.write tree.sound place key value
    have watched : ∀ o ∈ (((s.write place key value).2.registry c).prune w.observerAlive).entries,
        w.observerAlive o = true ∧ w.Registered v o ∧ w.Watches v (Path.pieces path) o := by
      intro o member
      obtain ⟨listed, alive⟩ := List.mem_filter.mp member
      rw [registry] at listed
      exact ⟨alive, ⟨id, s, c, serves.shows, here, listed⟩, lists _ c backed o listed⟩
    have bound : ∀ o ∈ (((s.write place key value).2.registry c).prune w.observerAlive).entries,
        w.observerAlive o = true ∧ ∃ path effect, w.Observed o path effect ∧ effect.Binds v := by
      intro o member
      obtain ⟨alive, -, path', effect, observed, -, binds⟩ := watched o member
      exact ⟨alive, path', effect, observed, binds⟩
    have pruned := Store.SameData.setRegistry (s.write place key value).2 c
      (((s.write place key value).2.registry c).prune w.observerAlive)
    have intact := withStore_intact serves.intact id (Scope.pruned w (s.write place key value).2 c)
    have there := World.stores_withStore here (Scope.pruned w (s.write place key value).2 c)
    have plain := pruned.plain tree'.plain
    obtain ⟨r, w', ran⟩ := Drawn.notify_returns intact serves.shows there plain bound perform
    obtain ⟨drawn, pins⟩ := Drawn.notify intact serves.shows there plain bound ran
    exact ⟨r, w', _, _, told.trans ran, pruned.tree tree', written.prune w.observerAlive c, watched,
      drawn, pins⟩

/-- The view is served after the write as before. -/
theorem assign (serves : Serves id v w) {path : String} {value : Value}
    {r : Except BindingError Unit}
    (ran : Scope.assign perform { store := id } path value w = some (r, w')) : Serves id v w' := by
  obtain ⟨s, here, -, -⟩ := serves.store
  obtain ⟨_, _, t, told, returned, tree, lists, -, drawn, pins⟩ :=
    serves.assign_drawn perform path value
  obtain ⟨-, rfl⟩ := Prod.mk.inj (Option.some.inj (returned.symm.trans ran))
  refine ⟨?_, ⟨t, ?_, tree, ?_⟩, drawn.intact pins (withStore_intact serves.intact id t)⟩
  · obtain ⟨view, found, same⟩ := serves.shows
    exact ⟨view, drawn.views ▸ found, same⟩
  · rw [drawn.stores]
    exact World.stores_withStore here t
  · exact lists.mono fun _ _ => Watches.later fun _ _ _ => (drawn.observed _ _ _).mpr

end Serves
end World
end ReactiveView
