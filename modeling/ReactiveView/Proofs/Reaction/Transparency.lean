import ReactiveView.Proofs.Reaction.Assigning

/-! Layout makes no difference to access. A store that nobody observes answers reads and writes as
the plain value of its snapshot does, errors included, whatever is in cells and whatever is inside
leaves. So data laid out as cells and the same data written as one leaf cannot be told apart. -/
namespace ReactiveView

variable {κ : Type}

/-- One access to the data of a store. -/
inductive Access where
  | resolve (path : String)
  | assign (path : String) (value : Value)

namespace Access

/-- What an access answers with, and the snapshot right after it. -/
abbrev Answer := Except BindingError (Option Value) × Value

def run (perform : Performer κ) (id : StoreId) (access : Access) : Run κ Answer := do
  let result ← Run.attempt <|
    match access with
    | .resolve path => some <$> Scope.resolve perform { store := id } path
    | .assign path v => do
      Scope.assign perform { store := id } path v
      return none
  return (result, (← Run.store id).snapshot)

/-- The access on plain data. -/
def onValue (data : Value) : Access → Answer
  | .resolve path => ((data.read path).map some, data)
  | .assign path v =>
    match data.assigned path v with
    | .ok changed => (.ok none, changed)
    | .error e => (.error e, data)

/-- Accesses one after the other, each on the data that the one before it has left. -/
def answers : Value → List Access → List Answer
  | _, [] => []
  | data, access :: rest => access.onValue data :: answers (access.onValue data).2 rest

end Access

namespace Store

/-- The store has the data as its snapshot, in a tree of cells that nobody observes. -/
structure Keeps (s : Store (Computed κ)) (data : Value) : Prop where
  tree : s.Tree
  snapshot : s.snapshot = data
  unobserved : ∀ id, (s.registry id).entries = []

theorem keeps_ofValue {fields : List (String × Value)}
    (canonical : (Value.object fields).Canonical) :
    (ofValue (.object fields) : Store (Computed κ)).Keeps (.object fields) :=
  ⟨tree_ofValue canonical, snapshot_ofValue canonical, entries_ofValue _⟩

end Store

section

variable (perform : Performer κ) {id : StoreId} {w : World κ} {s : Store (Computed κ)}
  {data : Value}

theorem Scope.resolve_keeps (keeps : s.Keeps data) (here : w.stores[id]? = some s) (path : String) :
    Scope.resolve perform { store := id } path w = some (data.read path, w) := by
  rw [Scope.resolve_untracked perform keeps.tree.plain here, Store.read_snapshot keeps.tree,
    keeps.snapshot]

theorem notify_none (w : World κ) : notify perform id [] w = some (.ok (), w) := rfl

/-- A write to a store that nobody observes is a write to its data. -/
theorem Scope.assign_keeps (keeps : s.Keeps data) (here : w.stores[id]? = some s) (path : String)
    (v : Value) :
    (∃ e, data.assigned path v = .error e ∧
      Scope.assign perform { store := id } path v w = some (.error e, w)) ∨
    ∃ t changed, t.Keeps changed ∧ data.assigned path v = .ok changed ∧
      Scope.assign perform { store := id } path v w = some (.ok (), w.withStore id t) := by
  have here' : w.stores[(Scope.mk id none).store]? = some s := here
  obtain ⟨tree, rfl, unobserved⟩ := keeps
  obtain failed | ⟨t, tree', assigned, ⟨-, registry⟩, quiet | ⟨c, -, told⟩⟩ :=
    Scope.assign_snapshot perform tree here' path v
  · exact .inl failed
  · exact .inr ⟨t, t.snapshot, ⟨tree', rfl, fun id => registry id ▸ unobserved id⟩, assigned, quiet⟩
  · have nobody : ((t.registry c).prune w.observerAlive).entries = [] := by
      rw [registry c, Registry.prune, unobserved c]
      rfl
    have same := Store.SameData.setRegistry t c ((t.registry c).prune w.observerAlive)
    rw [nobody, notify_none] at told
    refine .inr ⟨_, t.snapshot, ⟨same.tree tree', ?_, fun id => ?_⟩, assigned, told⟩
    · exact (same.valueOf (.object t.root) :)
    · rw [Store.registry_setRegistry]
      split
      · exact nobody
      · rw [registry id, unobserved id]

/-- One access answers as on plain data, and keeps the data that the access leaves. -/
theorem Access.run_keeps (keeps : s.Keeps data) (here : w.stores[id]? = some s) (access : Access) :
    ∃ t, t.Keeps (access.onValue data).2 ∧
      access.run perform id w = some (.ok (access.onValue data), w.withStore id t) := by
  have looks :
      ∀ {t : Store (Computed κ)} {w₁ : World κ} (result : Except BindingError (Option Value)),
      w₁.stores[id]? = some t →
        (do return (result, (← Run.store id).snapshot) : Run κ Access.Answer) w₁ =
        some (.ok (result, t.snapshot), w₁) := by
    intro t w₁ result there
    have here' : w₁.stores[(Scope.mk id none).store]? = some t := there
    exact Run.bind_of_ok (Run.store_run here') _
  unfold Access.run
  cases access with
  | resolve path =>
    refine ⟨s, keeps, ?_⟩
    have resolved : Run.attempt (some <$> Scope.resolve perform { store := id } path) w =
        some (.ok ((data.read path).map some), w) := by
      simp only [Run.attempt, map_eq_pure_bind]
      have ran := Scope.resolve_keeps perform keeps here path
      cases read : data.read path with
      | error e => rw [Run.bind_of_error (read ▸ ran)]; rfl
      | ok v => rw [Run.bind_of_ok (read ▸ ran)]; rfl
    rw [Run.bind_of_ok resolved, World.withStore_self here]
    exact (looks _ here).trans (by rw [keeps.snapshot]; rfl)
  | assign path v =>
    obtain ⟨e, refused, ran⟩ | ⟨t, changed, keeps', assigned, ran⟩ :=
      Scope.assign_keeps perform keeps here path v
    · refine ⟨s, by simpa only [Access.onValue, refused] using keeps, ?_⟩
      have failed : Run.attempt (do
          Scope.assign perform { store := id } path v
          return none : Run κ (Option Value)) w = some (.ok (.error e), w) := by
        rw [Run.attempt, Run.bind_of_error ran]
        rfl
      rw [Run.bind_of_ok failed, World.withStore_self here]
      exact (looks _ here).trans (by rw [keeps.snapshot, Access.onValue, refused])
    · refine ⟨t, by simpa only [Access.onValue, assigned] using keeps', ?_⟩
      have done : Run.attempt (do
          Scope.assign perform { store := id } path v
          return none : Run κ (Option Value)) w = some (.ok (.ok none), w.withStore id t) := by
        rw [Run.attempt, Run.bind_of_ok ran]
        rfl
      rw [Run.bind_of_ok done]
      exact (looks _ (World.stores_withStore here t)).trans
        (by rw [keeps'.snapshot, Access.onValue, assigned])

/-- Accesses one after the other answer as on plain data. -/
theorem Access.runAll_keeps (accesses : List Access) (keeps : s.Keeps data)
    (here : w.stores[id]? = some s) :
    ∃ w', accesses.mapM (Access.run perform id) w =
      some (.ok (Access.answers data accesses), w') := by
  induction accesses generalizing w s data with
  | nil => exact ⟨w, rfl⟩
  | cons access rest ih =>
    obtain ⟨t, keeps', ran⟩ := Access.run_keeps perform keeps here access
    obtain ⟨w', later⟩ := ih keeps' (World.stores_withStore here t)
    refine ⟨w', ?_⟩
    rw [List.mapM_cons, Run.bind_of_ok ran, Run.bind_of_ok later]
    rfl

end

/-- Data that is laid out as cells under a key, and data that was written as one leaf to the key,
give the same answers and the same snapshots to all accesses that follow. -/
theorem layout_transparent (perform : Performer κ) {w : World κ} {a b : StoreId} (apart : a ≠ b)
    {fields : List (String × Value)} (canonical : (Value.object fields).Canonical)
    (laidOut : w.stores[a]? = some (.ofValue (.object [("k", .object fields)])))
    (empty : w.stores[b]? = some (.ofValue (.object [("k", .null)]))) :
    ∃ w₁, Scope.assign perform { store := b } "k" (.object fields) w = some (.ok (), w₁) ∧
      ∀ accesses : List Access, ∃ answers wa wb,
        accesses.mapM (Access.run perform a) w₁ = some (.ok answers, wa) ∧
        accesses.mapM (Access.run perform b) w₁ = some (.ok answers, wb) := by
  have single : ∀ v : Value, v.Canonical → (Value.object [("k", v)]).Canonical := by
    intro v inner
    exact ⟨List.pairwise_singleton _ _, inner, trivial⟩
  have first : (Store.ofValue (.object [("k", .null)]) : Store (Computed κ)).Keeps
      (.object [("k", .null)]) := Store.keeps_ofValue (single .null trivial)
  have written : (Value.object [("k", .null)]).assigned "k" (.object fields) =
      .ok (.object [("k", .object fields)]) := by rfl
  obtain ⟨e, refused, -⟩ | ⟨t, changed, keeps, assigned, ran⟩ :=
    Scope.assign_keeps perform first empty "k" (.object fields)
  · cases written.symm.trans refused
  · obtain rfl := Except.ok.inj (written.symm.trans assigned)
    refine ⟨_, ran, fun accesses => ?_⟩
    obtain ⟨wb, leaf⟩ := Access.runAll_keeps perform accesses keeps
      (World.stores_withStore empty t)
    have still : (w.withStore b t).stores[a]? = some (.ofValue (.object [("k", .object fields)])) :=
      (World.stores_withStore_of_ne apart w t).trans laidOut
    obtain ⟨wa, cells⟩ := Access.runAll_keeps perform accesses
      (Store.keeps_ofValue (single _ canonical)) still
    exact ⟨_, wa, wb, cells, leaf⟩

def parcel : List (String × Value) :=
  [("list", .array [.bool true]), ("m/n", .object [("~", .string "deep")])]

def parcelWorld : World Empty :=
  { stores := #[.ofValue (.object [("k", .object parcel)]), .ofValue (.object [("k", .null)])] }

theorem parcel_transparent : ∃ w₁,
    Scope.assign (performer (fun _ _ command => nomatch command) 1) { store := 1 } "k"
      (.object parcel) parcelWorld = some (.ok (), w₁) ∧
    ∀ accesses : List Access, ∃ answers wa wb,
      accesses.mapM (Access.run (performer (fun _ _ command => nomatch command) 1) 0) w₁ =
        some (.ok answers, wa) ∧
      accesses.mapM (Access.run (performer (fun _ _ command => nomatch command) 1) 1) w₁ =
        some (.ok answers, wb) := by
  have canonical : (Value.object parcel).Canonical := by
    refine ⟨.cons (by decide) (.cons (by decide) .nil), ⟨trivial, trivial⟩, ?_, trivial⟩
    exact ⟨.cons (by decide) .nil, trivial, trivial⟩
  exact layout_transparent _ (by decide) canonical rfl rfl

end ReactiveView
