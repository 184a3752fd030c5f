import ReactiveView.Proofs.Reaction.Writing
import ReactiveView.Proofs.Store.Assigning

/-! Writing a path of a store whose cells form a tree. The snapshot says what comes of it: the write
fails as it would fail on the snapshot, or it leaves the snapshot with the value put in its place
and tells the observers of at most one cell. -/
namespace ReactiveView.Scope

open Store

variable {κ : Type} (perform : Performer κ) {scope : Scope} {w : World κ} {s : Store (Computed κ)}

/-- A write fails on the store as on its snapshot, and leaves the world alone. Else a property is
written, the snapshot becomes what the write makes of it, and what is still to be done is to tell
the observers of the cell at the path, if there is one. -/
theorem assign_snapshot (tree : s.Tree) (here : w.stores[scope.store]? = some s) (path : String)
    (v : Value) :
    (∃ e, s.snapshot.assigned path v = .error e ∧
      scope.assign perform path v w = some (.error e, w)) ∨
    ∃ t, t.Tree ∧ s.snapshot.assigned path v = .ok t.snapshot ∧
      ((∃ place key, t = (s.write place key v).2) ∧ ∀ id, t.registry id = s.registry id) ∧
      (scope.assign perform path v w = some (.ok (), w.withStore scope.store t) ∨
        ∃ c, s.cellAt? path = some c ∧ scope.assign perform path v w =
          notify perform scope.store ((t.registry c).prune w.observerAlive).entries
            (w.withStore scope.store (pruned w t c))) := by
  cases blank : Path.isEmpty path with
  | true =>
    refine .inl ⟨.emptyPath, ?_, assign_blank perform blank v⟩
    simp [Value.assigned, Path.segments, blank, bind, Except.bind]
  | false =>
    have parent := parentOf_untracked perform tree.plain here blank
    obtain ⟨value, -⟩ := follow_value tree path (Path.pieces path).dropLast (stands_root tree)
    cases reached : s.follow path (Path.pieces path).dropLast (.object s.root) with
    | error e =>
      rw [reached] at parent value
      refine .inl ⟨e, Value.assigned_of_error blank value.symm v, ?_⟩
      unfold Scope.assign
      rw [Run.bind_of_error parent]
    | ok place =>
      rw [reached] at parent value
      have there : s.snapshot.follow path (Path.pieces path).dropLast = .ok (s.valueOf place) :=
        value.symm
      have assigned := Value.assigned_of_follow blank there v
      have ran := assign_of_parent perform parent v
      obtain ⟨missing, wrote⟩ | ⟨same, wrote⟩ | ⟨changed, t, silent, changes, wrote⟩ :=
        write_snapshot tree path reached ((Path.pieces path).getLastD "") v
      · refine .inl ⟨_, by rw [assigned, missing], ?_⟩
        rw [ran, Run.bind_of_ok (set_done perform here wrote), World.withStore_self here]
        rfl
      · refine .inr ⟨s, tree, by rw [assigned, same],
          ⟨⟨place, _, (congrArg Prod.snd wrote).symm⟩, fun _ => rfl⟩, .inl ?_⟩
        rw [ran, Run.bind_of_ok (set_done perform here wrote)]
        rfl
      · refine .inr ⟨t, changes.tree, by rw [assigned, silent, changes.snapshot],
          ⟨⟨place, (Path.pieces path).getLastD "", ?_⟩, changes.registry⟩, ?_⟩
        · obtain wrote | wrote | ⟨c, wrote⟩ := wrote <;> rw [wrote]
        · obtain wrote | wrote | ⟨c, wrote⟩ := wrote
          · refine .inl ?_
            rw [ran, Run.bind_of_ok (set_done perform here wrote)]
            rfl
          · refine .inl ?_
            rw [ran, Run.bind_of_ok (set_done perform here wrote)]
            rfl
          · obtain ⟨rootFields, root⟩ := tree.sound.root_object
            have backed := descend?_of_write tree.plain path root reached wrote
            rw [Path.dropLast_append_getLastD] at backed
            exact .inr ⟨c, backed, assign_of_told perform parent (set_cell perform here wrote)⟩

/-- A write that fails was refused by the data and left the world alone, or it has overwritten a
cell and telling the observers of the cell has failed. -/
theorem assign_eq_error (tree : s.Tree) {id : StoreId} (here : w.stores[id]? = some s)
    {path : String} {v : Value} {e : BindingError} {w' : World κ}
    (ran : assign perform { store := id } path v w = some (.error e, w')) :
    s.snapshot.Refuses path e ∧ w' = w ∨
    ∃ c, s.cellAt? path = some c ∧ s.retains c v = false ∧
      notify perform id ((s.registry c).ids w.observerAlive)
        (w.withStore id (s.overwrite c v w.observerAlive)) = some (.error e, w') := by
  have here' : w.stores[(Scope.mk id none).store]? = some s := here
  obtain ⟨e', refused, failed⟩ | ⟨t, -, assigned, -, quiet | ⟨c, backed, -⟩⟩ :=
    assign_snapshot perform tree here' path v
  · obtain ⟨same, rfl⟩ := Prod.mk.inj (Option.some.inj (failed.symm.trans ran))
    obtain rfl := Except.error.inj same
    exact .inl ⟨Value.assigned_eq_error.mp refused, rfl⟩
  · cases quiet.symm.trans ran
  · have notBlank : Path.isEmpty path = false := by
      cases blank : Path.isEmpty path with
      | true => cases (Value.assigned_eq_error.mpr (.blank blank)).symm.trans assigned
      | false => rfl
    rw [assign_run perform (tree.plain c) here' notBlank backed] at ran
    split at ran
    · cases ran
    · rename_i changes
      exact .inr ⟨c, backed, Bool.eq_false_iff.mpr changes, ran⟩

end ReactiveView.Scope
