import ReactiveView.Proofs.Reaction.FanOut
import ReactiveView.Proofs.Reaction.ReadBack
import ReactiveView.Proofs.Value.Apart

/-! Paths apart from a written one. Whatever a write makes of its own path, whether by a new cell,
over a cell or inside a leaf, and whether the observers that it tells fail or not, a path apart from
it reads as before. -/
namespace ReactiveView

variable {κ : Type} {perform : Performer κ} {id : StoreId} {effects : Effect κ → Prop}
  {w w' : World κ}

open Run

/-- A write changes nothing that is read at a path apart from its own, be it a value or a failure,
and however the write ends. The written path is spelt so that it names no member in a second way. -/
theorem apart_reads_same (harmless : Harmless perform id effects) (watchers : Watchers effects w)
    {s : Store (Computed κ)} {allowed : Computed κ → Prop} {made : ObserverId}
    (here : w.stores[id]? = some s) (arises : s.Arises allowed made) (plain : s.Plain)
    {path other : String} (apart : Apart (Path.pieces path) (Path.pieces other))
    (spelt : ¬ Index.Misspelt ((Path.pieces path).getLastD "")) {v : Value}
    {r : Except BindingError Unit}
    (ran : Scope.assign perform { store := id } path v w = some (r, w')) :
    ∃ result, Scope.resolve perform { store := id } other w = some (result, w) ∧
      Scope.resolve perform { store := id } other w' = some (result, w') := by
  have formed := arises.formed
  have tree : s.Tree := ⟨formed.sound, plain, formed.branching⟩
  refine ⟨s.read other, Scope.resolve_untracked perform plain here other, ?_⟩
  obtain ⟨e, -, -, rfl⟩ | ⟨t, there, tree', -, assigned⟩ :=
    assign_undisturbed harmless tree here watchers ran
  · exact Scope.resolve_untracked perform plain here other
  · have same : t.read other = s.read other := by
      rw [Store.read_snapshot tree', Store.read_snapshot tree]
      exact Value.read_assigned_apart assigned apart spelt
    rw [Scope.resolve_untracked perform tree'.plain there, same]

theorem harmless_noting : Harmless unhosted id (· = noting) := by
  rintro effect rfl new old w r w' ran
  have logged : w' = { w with log := new :: w.log } := (Prod.mk.inj (Option.some.inj ran)).2.symm
  subst logged
  exact undisturbed_of_same rfl fun watchers => watchers

/-- The observer of the written member is told, and the member beside it is still missing. -/
theorem fanned_apart : ∃ w w' : World Empty,
    fanned.forM (Deed.run unhosted 0) { stores := #[.ofValue fannedData] } = some (.ok (), w) ∧
    Scope.assign unhosted { store := 0 } "b.c" (.string "z") w = some (.ok (), w') ∧
    ∃ result, Scope.resolve unhosted { store := 0 } "b.d" w = some (result, w) ∧
      Scope.resolve unhosted { store := 0 } "b.d" w' = some (result, w') := by
  have ran : ((fanned.forM (Deed.run unhosted 0) { stores := #[.ofValue fannedData] }).bind
      fun before => (Scope.assign unhosted { store := 0 } "b.c" (.string "z") before.2).map
        fun after => before.1.isOk && after.1.isOk) = some true := by decide +kernel
  obtain ⟨⟨made, w⟩, watched, ran⟩ := Option.bind_eq_some_iff.mp ran
  obtain ⟨⟨done, w'⟩, wrote, fine⟩ := Option.map_eq_some_iff.mp ran
  obtain ⟨fine, fine'⟩ := Bool.and_eq_true_iff.mp fine
  cases made with
  | error e => cases fine
  | ok =>
    cases done with
    | error e => cases fine'
    | ok =>
      have settled := fanned_settled watched
      obtain ⟨s, here, plain, arises⟩ := settled.store
      have apart : Apart (Path.pieces "b.c") (Path.pieces "b.d") := by
        constructor <;> decide +kernel
      have spelt : ¬ Index.Misspelt ((Path.pieces "b.c").getLastD "") := by
        rintro ⟨i, parsed, -⟩
        have noIndex : Index.parse? ((Path.pieces "b.c").getLastD "") = none := by decide +kernel
        rw [noIndex] at parsed
        cases parsed
      exact ⟨w, w', watched, wrote,
        apart_reads_same harmless_noting settled.effects here arises plain apart spelt wrote⟩

end ReactiveView
