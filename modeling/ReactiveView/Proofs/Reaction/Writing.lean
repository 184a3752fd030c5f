import ReactiveView.Proofs.Store.Overwriting

/-! Writing to a cell of data. The way to the cell passes objects only, so no code is run on it. The
write leaves the store as it was, or it overwrites the cell and then updates the live observers that
were registered there. -/
namespace ReactiveView

variable {κ : Type}

namespace Store

/-- Whether writing a value to a cell changes nothing. -/
def retains (s : Store (Computed κ)) (c : CellId) (v : Value) : Bool :=
  match s.content c with
  | .leaf current => v.isScalar && current.strictEq v
  | _ => false

/-- The store after a cell is overwritten and its dead observers are removed. -/
def overwrite (s : Store (Computed κ)) (c : CellId) (v : Value) (alive : ObserverId → Bool) :
    Store (Computed κ) :=
  (s.setContent c (.leaf v)).setRegistry c ((s.registry c).prune alive)

variable {s : Store (Computed κ)} {c : CellId}

theorem overwrites_overwrite (inside : c < s.cells.size) (v : Value) (alive : ObserverId → Bool) :
    Overwrites s (s.overwrite c v alive) c v :=
  (overwrites_setContent inside v).sameData (.setRegistry _ c _)

theorem registry_overwrite (s : Store (Computed κ)) (c : CellId) (v : Value)
    (alive : ObserverId → Bool) (id : CellId) : (s.overwrite c v alive).registry id =
      if id = c ∧ c < s.cells.size then (s.registry c).prune alive else s.registry id := by
  rw [overwrite, registry_setRegistry, size_setContent, registry_setContent]

/-- Only dead observers are missing after the write. -/
theorem mem_registry_overwrite {v : Value} {alive : ObserverId → Bool} {id : CellId}
    {o : ObserverId} (live : alive o = true) (registered : o ∈ (s.registry id).entries) :
    o ∈ ((s.overwrite c v alive).registry id).entries := by
  rw [registry_overwrite]
  split
  · rename_i here
    exact List.mem_filter.mpr ⟨here.1 ▸ registered, live⟩
  · exact registered

/-- An observer that tracks cells is registered on them, and those registered stay so. -/
theorem mem_registry_track {tracker : Option ObserverId} {cells : List CellId} {id : CellId}
    {o : ObserverId} (registered : o ∈ (s.registry id).entries ∨
      tracker = some o ∧ id ∈ cells ∧ id < s.cells.size) :
    o ∈ ((s.track tracker cells).registry id).entries := by
  cases tracker with
  | none => exact registered.resolve_right fun now => nomatch now.1
  | some p =>
    rw [registry_track]
    split
    · exact Registry.mem_entries_depend.mpr
        (registered.imp_right fun now => (Option.some.inj now.1).symm)
    · rename_i notPassed
      exact registered.resolve_right fun now => notPassed now.2

theorem cellAt?_sound (sound : s.Sound) {path : String} (found : s.cellAt? path = some c) :
    c < s.cells.size ∧ c ≠ s.root := by
  rw [cellAt?_eq] at found
  obtain ⟨parent, -, member⟩ := Option.bind_eq_some_iff.mp found
  exact sound.child member

end Store

/-- The world in which a pass over a cell starts: the cell is written and all its observers
are pinned. -/
def World.passing (w : World κ) (id : StoreId) (s : Store (Computed κ)) (told : List ObserverId) :
    World κ :=
  { w.withStore id s with pins := told.map .observer ++ w.pins }

namespace Scope

open Store

variable (perform : Performer κ) {scope : Scope} {w : World κ} {s : Store (Computed κ)} {c : CellId}

theorem subscribers_run (here : w.stores[scope.store]? = some s) (c : CellId) :
    subscribers scope.store c w = some (.ok ((s.registry c).prune w.observerAlive).entries,
      w.withStore scope.store (s.setRegistry c ((s.registry c).prune w.observerAlive))) := by
  unfold subscribers
  rw [Run.bind_of_ok (show Run.world w = some (.ok w, w) from rfl),
    Run.bind_of_ok (Run.store_run here)]
  rfl

theorem set_done (here : w.stores[scope.store]? = some s) {place : Handle} {key : String}
    {v : Value} {outcome : Outcome} {t : Store (Computed κ)}
    (wrote : s.write place key v = (.done outcome, t)) :
    scope.set perform place key v w = some (.ok outcome, w.withStore scope.store t) := by
  unfold Scope.set
  rw [Run.bind_of_ok (Run.store_run here), wrote]
  rfl

/-- The store once the dead observers of a cell have left it. -/
def pruned (w : World κ) (t : Store (Computed κ)) (c : CellId) : Store (Computed κ) :=
  t.setRegistry c ((t.registry c).prune w.observerAlive)

theorem set_cell (here : w.stores[scope.store]? = some s) {place : Handle} {key : String}
    {v : Value} {t : Store (Computed κ)} (wrote : s.write place key v = (.cell c, t)) :
    scope.set perform place key v w =
      (notify perform scope.store ((t.registry c).prune w.observerAlive).entries >>=
        fun _ => pure Outcome.changed) (w.withStore scope.store (pruned w t c)) := by
  unfold Scope.set
  rw [Run.bind_of_ok (Run.store_run here), wrote]
  show (Run.setStore scope.store t >>= _) w = _
  rw [Run.bind_of_ok (run_setStore _ _ _)]
  have there := World.stores_withStore here t
  show (subscribers scope.store c >>= _) _ = _
  rw [Run.bind_of_ok (subscribers_run there c), World.withStore_withStore]
  rfl

theorem set_run (data : ∀ property, s.content c ≠ .computed property)
    (here : w.stores[scope.store]? = some s) {parent : CellId} {keys : List (String × CellId)}
    {key : String} (object : s.content parent = .object keys) (member : keys.lookup key = some c)
    (v : Value) :
    scope.set perform (.object parent) key v w =
      if s.retains c v then some (.ok .unchanged, w)
      else (notify perform scope.store ((s.registry c).prune w.observerAlive).entries >>=
        fun _ => pure Outcome.changed)
          (w.withStore scope.store (s.overwrite c v w.observerAlive)) := by
  have write : s.write (.object parent) key v =
      if s.retains c v then (.done .unchanged, s) else (.cell c, s.setContent c (.leaf v)) := by
    simp only [write, object, member]
    cases content : s.content c with
    | computed property => exact (data property content).elim
    | leaf current => simp only [writeCell, retains, content]
    | object inner => simp only [writeCell, retains, content, Bool.false_eq_true, if_false]
  split
  · rename_i kept
    rw [if_pos kept] at write
    rw [set_done perform here write, World.withStore_self here]
  · rename_i changes
    rw [if_neg changes] at write
    rw [set_cell perform here write, pruned, registry_setContent, overwrite]

/-- What a write ends with, given what it finds at its path. -/
theorem assign_of_parent {path key : String} {place : Handle}
    (found : parentOf perform { store := scope.store } path w = some (.ok (place, key), w))
    (v : Value) :
    scope.assign perform path v w =
      (scope.set perform place key v >>= fun outcome =>
        match outcome with
        | .missing => Run.fail (.unresolvedPath path key)
        | .rejected => Run.fail (.notAssignable path)
        | .changed | .created | .unchanged | .silent => return) w := by
  unfold Scope.assign
  exact Run.bind_of_ok found _

/-- A write that tells observers ends as telling them ends. -/
theorem assign_of_told {path key : String} {place : Handle} {v : Value} {told : List ObserverId}
    {w₁ : World κ}
    (found : parentOf perform { store := scope.store } path w = some (.ok (place, key), w))
    (written : scope.set perform place key v w =
      (notify perform scope.store told >>= fun _ => pure Outcome.changed) w₁) :
    scope.assign perform path v w = notify perform scope.store told w₁ := by
  rw [assign_of_parent perform found]
  cases ran : notify perform scope.store told w₁ with
  | none => rw [Run.bind_of_none (written.trans (Run.bind_of_none ran _))]
  | some answer =>
    obtain ⟨_ | _, _⟩ := answer
    · rw [Run.bind_of_error (written.trans (Run.bind_of_error ran _))]
    · rw [Run.bind_of_ok (written.trans (Run.bind_of_ok ran _))]
      rfl

theorem parentOf_untracked (plain : s.Plain) (here : w.stores[scope.store]? = some s)
    {path : String} (notBlank : Path.isEmpty path = false) :
    parentOf perform { store := scope.store } path w =
      some ((s.follow path (Path.pieces path).dropLast (.object s.root)).map
        (·, (Path.pieces path).getLastD ""), w) := by
  have walked := parentOf_run perform plain
    (show w.stores[(Scope.mk scope.store none).store]? = some s from here) path
  simp only [Path.segments, notBlank, Bool.false_eq_true, if_false] at walked
  rw [walked]
  exact congrArg (fun w => some (_, w)) (World.withStore_self here)

/-- Keys that lead from an object to an object pass data only. -/
theorem walk_objects {id : StoreId} (here : w.stores[id]? = some s) (path : String)
    {keys : List String} {a b : CellId} {inner : List (String × CellId)}
    (reached : s.descend? a keys = some b) (object : s.content b = .object inner) :
    walk perform { store := id } path keys (.object a) w = some (.ok (.object b), w) := by
  induction keys generalizing a with
  | nil =>
    obtain rfl := Option.some.inj reached
    rfl
  | cons key rest ih =>
    obtain ⟨child, member, further⟩ := Option.bind_eq_some_iff.mp reached
    obtain ⟨fields, isObject⟩ := object_of_descend? further object
    have data : ∀ property, s.content child ≠ .computed property := by
      intro property computed
      cases computed.symm.trans isObject
    have stepped : property? perform { store := id } (.object a) key w =
        some (.ok (some (.object child)), w) := by
      rw [property?, Run.bind_of_ok (Run.store_run here), find_cell member data]
      show (Run.store id >>= fun s => pure (some (s.handleOf child))) w = _
      rw [Run.bind_of_ok (Run.store_run here), handleOf_object isObject]
      rfl
    rw [walk, Run.bind_of_ok stepped]
    exact ih further

/-- Writing a path to a cell of data retains the value there, or overwrites it and updates
the observers. -/
theorem assign_run (data : ∀ property, s.content c ≠ .computed property)
    (here : w.stores[scope.store]? = some s) {path : String} (notBlank : Path.isEmpty path = false)
    (found : s.cellAt? path = some c) (v : Value) :
    scope.assign perform path v w =
      if s.retains c v then some (.ok (), w)
      else notify perform scope.store ((s.registry c).prune w.observerAlive).entries
        (w.withStore scope.store (s.overwrite c v w.observerAlive)) := by
  rw [cellAt?_eq] at found
  obtain ⟨parent, reached, member⟩ := Option.bind_eq_some_iff.mp found
  obtain ⟨outer, object, member⟩ := object_of_child? member
  have way : parentOf perform { store := scope.store } path w =
      some (.ok (.object parent, (Path.pieces path).getLastD ""), w) := by
    have split : Path.segments path = .ok (Path.pieces path) := by
      simp only [Path.segments, notBlank, Bool.false_eq_true, if_false]
    rw [parentOf, split]
    show (Run.store scope.store >>= fun s => walk perform { store := scope.store } path
      (Path.pieces path).dropLast (.object s.root) >>= fun place =>
        pure (place, (Path.pieces path).getLastD "")) w = _
    rw [Run.bind_of_ok (Run.store_run here),
      Run.bind_of_ok (walk_objects perform here path reached object)]
    rfl
  have written := set_run perform data here object member v
  split
  · rename_i kept
    rw [kept, if_pos rfl] at written
    rw [assign_of_parent perform way, Run.bind_of_ok written]
    rfl
  · rename_i changes
    rw [if_neg changes] at written
    exact assign_of_told perform way written

/-- A blank path is never written. -/
theorem assign_blank {path : String} (blank : Path.isEmpty path = true) (v : Value) :
    scope.assign perform path v w = some (.error .emptyPath, w) := by
  unfold Scope.assign parentOf Path.segments
  rw [blank]
  rfl

/-- A write that is over had a path to follow. -/
theorem filled_of_assign {path : String} {v : Value} {w' : World κ}
    (ran : scope.assign perform path v w = some (.ok (), w')) : Path.isEmpty path = false := by
  cases blank : Path.isEmpty path with
  | true =>
    rw [assign_blank perform blank] at ran
    cases ran
  | false => rfl

/-- A write to a cell of data that is over retained the value there, or it overwrote the cell and
all observers registered there were updated. -/
theorem assign_eq_ok {id : StoreId} (data : ∀ property, s.content c ≠ .computed property)
    (here : w.stores[id]? = some s) {path : String} (found : s.cellAt? path = some c) {v : Value}
    {w' : World κ}
    (ran : assign perform { store := id } path v w = some (.ok (), w')) :
    s.retains c v = true ∧ w' = w ∨ s.retains c v = false ∧
      notify perform id ((s.registry c).prune w.observerAlive).entries
        (w.withStore id (s.overwrite c v w.observerAlive)) = some (.ok (), w') := by
  rw [assign_run perform data here (filled_of_assign perform ran) found] at ran
  split at ran
  · rename_i retains
    exact .inl ⟨retains, (Prod.mk.inj (Option.some.inj ran)).2.symm⟩
  · rename_i changes
    exact .inr ⟨Bool.eq_false_iff.mpr changes, ran⟩

end Scope
end ReactiveView
