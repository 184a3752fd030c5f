import ReactiveView.Proofs.Reaction.Mirroring
import ReactiveView.Proofs.Reaction.Pass

/-! Runs in order: every write goes to a path of one store that a cell backs, and no update and no
effect fails. Such a run is carried out by any host as it is here, and its writes leave no observer
of the store behind, however deep they are nested in effects. -/
namespace ReactiveView

variable {κ : Type} {id : StoreId} {w w' : World κ}

open Run

/-- The store that the data of a source is kept in. -/
def Source.store (w : World κ) (source : Source) : StoreId :=
  match source with
  | .scope s => s.store
  | .view v => (w.views[v]?.getD { store := 0, methods := [], mount := none }).store

/-- A write that counts only if it goes to a path of the store that is backed by a cell, and if it
does not fail or the path is blank. -/
def Source.backedWrite (id : StoreId) (source : Source) (path : String) (written : Run κ Value) :
    Run κ Value := fun w =>
  if source.store w = id ∧ w.backs id path = true then
    (written w).filter fun answer => answer.1.isOk || Path.isEmpty path
  else none

/-- A call that is out of order has no answer. -/
def Call.inOrder (id : StoreId) (carriedOut : Run κ Value) : Call κ → Run κ Value
  | .write source path _ => source.backedWrite id path carriedOut
  | .host _ => Run.exhausted
  | _ => carriedOut

/-- Carries out calls nested to so many levels, as long as all of them are in order. -/
def orderly (id : StoreId) : Nat → Performer κ
  | 0, _ => Run.exhausted
  | levels + 1, c => c.inOrder id (c.carryOut (fun _ => Run.exhausted) (orderly id levels))

theorem Source.backedWrite_eq_some {source : Source} {path : String} {written : Run κ Value}
    {r : Except BindingError Value × World κ}
    (ran : source.backedWrite id path written w = some r) : written w = some r ∧
      source.store w = id ∧ w.backs id path = true ∧ (r.1.isOk || Path.isEmpty path) = true := by
  unfold backedWrite at ran
  split at ran
  · obtain ⟨done, fine⟩ := Option.filter_eq_some_iff.mp ran
    exact ⟨done, ‹_ ∧ _›.1, ‹_ ∧ _›.2, fine⟩
  · cases ran

theorem Call.inOrder_below {x y : Run κ Value} (below : Below x y) (c : Call κ) :
    Below (c.inOrder id x) y := by
  cases c with
  | write source path value => exact fun w r ran => below w r (Source.backedWrite_eq_some ran).1
  | host command => exact Below.exhausted y
  | _ => exact below

/-- What is carried out in order is carried out so by every host. -/
theorem orderly_below (host : Nat → Performer κ → κ → Run κ Unit) (levels : Nat) (c : Call κ) :
    Below (orderly id levels c) (performer host levels c) := by
  induction levels generalizing c with
  | zero => exact Below.exhausted _
  | succ levels ih =>
    exact Call.inOrder_below (Call.carryOut_below (fun _ => Below.exhausted _) ih c) c

/-- An assignment in order leaves no observer behind. -/
theorem tends_assign {live : ObserverId → Prop} {perform : Performer κ}
    (calls : ∀ c, Keeps (Tends id live) (perform c)) {scope : Scope} {path : String} {v : Value}
    (same : scope.store = id) (backed : w.backs id path = true) {r : Except BindingError Value}
    (ran : (do scope.assign perform path v; return .null : Run κ Value) w = some (r, w'))
    (fine : (r.isOk || Path.isEmpty path) = true) : Tends id live w w' := by
  subst same
  obtain ⟨e, failed, rfl⟩ | ⟨_, w₁, done, ended⟩ := bind_eq_some ran
  · rw [Scope.assign_blank perform fine] at failed
    exact (Prod.mk.inj (Option.some.inj failed)).2 ▸ composes_tends.refl w
  · obtain rfl := (Prod.mk.inj (Option.some.inj ended)).2
    exact assign_attended calls backed done

/-- Calls in order leave no observer behind. -/
theorem orderly_keeps {live : ObserverId → Prop} (levels : Nat) (c : Call κ) :
    Keeps (Tends id live) (orderly id levels c) := by
  induction levels generalizing c with
  | zero => exact Keeps.exhausted
  | succ levels ih =>
    cases c with
    | read source path =>
      cases source with
      | scope scope => exact keeps_resolve ih scope path
      | view v =>
        exact Keeps.bind composes_tends (Keeps.inspect composes_tends _) fun _ =>
          keeps_resolve ih _ path
    | write source path value =>
      intro w r w' ran
      obtain ⟨ran, same, backed, fine⟩ := Source.backedWrite_eq_some ran
      cases source with
      | scope scope => exact tends_assign ih same backed ran fine
      | view v =>
        obtain ⟨view, looked, same⟩ : ∃ view, Run.view v w = some (.ok view, w) ∧ view.store = id :=
          ⟨_, rfl, same⟩
        have ran : (View.set (orderly id levels) v path value >>= fun _ => pure Value.null) w =
            some (r, w') := ran
        unfold View.set at ran
        rw [bind_assoc, bind_of_ok looked] at ran
        exact tends_assign ih same backed ran fine
    | formValue ref =>
      exact Keeps.bind composes_tends (Keeps.bind composes_tends (Keeps.inspect composes_tends _)
        fun _ => Keeps.pure composes_tends _) fun _ => Keeps.pure composes_tends _
    | invoke view method event =>
      refine Keeps.bind composes_tends (Keeps.bind composes_tends (Keeps.inspect composes_tends _)
        fun v => ?_) fun _ => Keeps.pure composes_tends _
      cases v.methods.lookup method with
      | none => exact Keeps.fail composes_tends _
      | some code => exact Keeps.program composes_tends ih _
    | log value =>
      exact Keeps.bind composes_tends (Keeps.modify fun _ => tends_of_same rfl rfl rfl rfl rfl)
        fun _ => Keeps.pure composes_tends _
    | host command => exact Keeps.exhausted

end ReactiveView
