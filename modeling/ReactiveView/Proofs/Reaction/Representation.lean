import ReactiveView.Proofs.Reaction.History
import ReactiveView.Proofs.Store.Evolution

/-! The representation of a store over whole runs. Whatever is asked of the library, and whatever
code it runs on the way, with any handles that were ever given out: a store is changed by writes,
computed properties and registrations only. So it stays regular as long as the program runs. -/
namespace ReactiveView

variable {κ α : Type} {id : StoreId} {w w₁ w₂ : World κ} {s : Store (Computed κ)}

open Run

/-- The store of that number is there still, and has become another one by its own operations. -/
def World.Develops (id : StoreId) (w w' : World κ) : Prop :=
  ∀ s, w.stores[id]? = some s → ∃ t, w'.stores[id]? = some t ∧ s.Becomes t

namespace World

theorem Develops.of_same (same : w₂.stores[id]? = w₁.stores[id]?) : w₁.Develops id w₂ :=
  fun s here => ⟨s, same.trans here, .refl⟩

theorem Develops.of_stores (same : w₂.stores = w₁.stores) : w₁.Develops id w₂ :=
  .of_same (by rw [same])

/-- A store is put in the place of one that it has come from. -/
theorem Develops.of_set {other : StoreId} {t : Store (Computed κ)}
    (becomes : ∀ s, w.stores[other]? = some s → s.Becomes t) :
    w.Develops id (w.withStore other t) := by
  intro s here
  by_cases own : id = other
  · subst own
    exact ⟨t, stores_withStore here t, becomes s here⟩
  · exact ⟨s, (stores_withStore_of_ne own w t).trans here, .refl⟩

theorem composes_develops : Composes (Develops (κ := κ) id) where
  refl _ := .of_stores rfl
  trans first second s here := by
    obtain ⟨t, between, becomes⟩ := first s here
    obtain ⟨u, there, becomes'⟩ := second t between
    exact ⟨u, there, becomes.trans becomes'⟩

end World

open World

section Parts

theorem develops_pure (a : α) : Keeps (κ := κ) (Develops id) (Pure.pure a) :=
  Keeps.pure composes_develops a

theorem develops_ofExcept (r : Except BindingError α) :
    Keeps (κ := κ) (Develops id) (Run.ofExcept r) :=
  Keeps.ofExcept composes_develops r

theorem develops_bind {β : Type} {x : Run κ α} {f : α → Run κ β} (first : Keeps (Develops id) x)
    (then_ : ∀ a, Keeps (Develops id) (f a)) : Keeps (Develops id) (x >>= f) :=
  Keeps.bind composes_develops first then_

theorem develops_looking {x : Run κ α} (f : World κ → α)
    (looks : ∀ w, x w = some (.ok (f w), w)) : Keeps (Develops id) x := by
  intro w r w' ran
  obtain ⟨-, rfl⟩ := Prod.mk.inj (Option.some.inj ((looks w).symm.trans ran))
  exact .of_stores rfl

theorem develops_aside {f : World κ → World κ} (aside : ∀ w, (f w).stores = w.stores) :
    Keeps (Develops id) (Run.modify f) :=
  Keeps.modify fun w => .of_stores (aside w)

theorem develops_pinning (pins : List Pin) {x : Run κ α} (inner : Keeps (Develops id) x) :
    Keeps (Develops id) (Run.pinning pins x) := by
  intro w r w' ran
  obtain ⟨after, answer, rfl⟩ := pinning_eq_some ran
  exact inner { w with pins := pins ++ w.pins } r after answer

theorem develops_whileAlive (v : ViewId) {x : Run κ Unit} (inner : Keeps (Develops id) x) :
    Keeps (Develops id) (Run.whileAlive v x) := by
  apply develops_bind (develops_looking _ fun _ => rfl)
  intro w
  split
  · exact develops_pinning _ inner
  · exact develops_pure _

/-- A store is put back that the one in place has become. -/
theorem develops_setStore {store : StoreId} {s t : Store (Computed κ)} (becomes : s.Becomes t)
    {w w₁ w' : World κ} {r : Except BindingError Unit}
    (found : Run.store store w = some (.ok s, w₁)) (ran : Run.setStore store t w₁ = some (r, w')) :
    w.Develops id w' := by
  obtain ⟨same, rfl⟩ := Prod.mk.inj (Option.some.inj found)
  obtain ⟨-, rfl⟩ := Prod.mk.inj (Option.some.inj ran)
  refine .of_set fun s' here => ?_
  obtain rfl : s' = s := by simpa [here] using same
  exact becomes

end Parts

section

variable {perform : Performer κ} (calls : ∀ c, Keeps (Develops id) (perform c))
include calls

theorem develops_program (p : Program κ α) : Keeps (Develops id) (p.run perform) :=
  Keeps.program composes_develops calls p

namespace Scope

omit calls in
theorem develops_register (scope : Scope) (cell : CellId) :
    Keeps (κ := κ) (Develops id) (scope.register cell) := by
  unfold register
  cases scope.tracker with
  | none => exact develops_pure _
  | some o =>
    intro w r w' ran
    obtain ⟨e, failed, -⟩ | ⟨s, w₁, found, ran⟩ := bind_eq_some ran
    · cases failed
    · exact develops_setStore (.setRegistry cell _ .refl) found ran

theorem develops_property? (scope : Scope) (place : Handle) (key : String) :
    Keeps (Develops id) (scope.property? perform place key) := by
  apply develops_bind (develops_looking _ fun _ => rfl)
  intro s
  cases s.find place key with
  | missing => exact develops_pure _
  | inside _ => exact develops_pure _
  | cell c =>
    exact develops_bind (develops_register scope c) fun _ => develops_looking _ fun _ => rfl
  | computed c property =>
    exact develops_bind (develops_register scope c) fun _ =>
      develops_bind (develops_program calls _) fun _ => develops_pure _

theorem develops_walk (scope : Scope) (path : String) (keys : List String) (place : Handle) :
    Keeps (Develops id) (scope.walk perform path keys place) := by
  induction keys generalizing place with
  | nil => exact develops_pure _
  | cons key rest ih =>
    apply develops_bind (develops_property? calls scope place key)
    intro next
    cases next with
    | none => exact develops_ofExcept _
    | some next => exact ih next

theorem develops_parentOf (scope : Scope) (path : String) :
    Keeps (Develops id) (scope.parentOf perform path) :=
  develops_bind (develops_ofExcept _) fun _ =>
    develops_bind (develops_looking _ fun _ => rfl) fun _ =>
    develops_bind (develops_walk calls scope path _ _) fun _ => develops_pure _

theorem develops_resolve (scope : Scope) (path : String) :
    Keeps (Develops id) (scope.resolve perform path) := by
  apply develops_bind (develops_parentOf calls scope path)
  intro way
  apply develops_bind (develops_property? calls scope way.1 way.2)
  intro found
  cases found with
  | some place => exact develops_looking _ fun _ => rfl
  | none =>
    apply develops_bind (develops_looking _ fun _ => rfl)
    intro s
    split
    · exact develops_ofExcept _
    · exact develops_pure _

end Scope

theorem develops_renderFrom (store : StoreId) (template : List Piece) :
    Keeps (Develops id) (renderFrom perform store template) := by
  refine develops_bind (Keeps.mapM composes_develops fun piece _ => ?_) fun _ => develops_pure _
  cases piece with
  | literal c => exact develops_pure _
  | slot path => exact develops_bind (Scope.develops_resolve calls _ path) fun _ => develops_pure _

theorem Effect.develops_fire (effect : Effect κ) (new old : Value) :
    Keeps (Develops id) (effect.fire perform new old) := by
  cases effect with
  | formValue target => exact develops_aside fun _ => rfl
  | html target => exact develops_aside fun _ => rfl
  | text target => exact develops_aside fun _ => rfl
  | template view target pieces =>
    exact develops_whileAlive view <| develops_bind (develops_looking _ fun _ => rfl) fun _ =>
      develops_bind (develops_renderFrom calls _ pieces) fun _ => develops_aside fun _ => rfl
  | code run => exact develops_program calls _
  | viewCode view run => exact develops_whileAlive view (develops_program calls _)

theorem develops_updateObserver (store : StoreId) (o : ObserverId) :
    Keeps (Develops id) (updateObserver perform store o) := by
  apply develops_bind (develops_looking _ fun _ => rfl)
  intro observer
  apply develops_bind (Scope.develops_resolve calls _ _)
  intro new
  apply develops_bind (develops_looking _ fun _ => rfl)
  intro observer
  split
  · exact develops_pure _
  · exact develops_bind (develops_aside fun _ => rfl) fun _ =>
      develops_bind (develops_aside fun _ => rfl) fun _ => Effect.develops_fire calls _ _ _

theorem develops_notify (store : StoreId) (observers : List ObserverId) :
    Keeps (Develops id) (notify perform store observers) :=
  develops_pinning _ (Keeps.forM composes_develops fun o _ => develops_updateObserver calls store o)

omit calls in
theorem develops_subscribers (store : StoreId) (cell : CellId) :
    Keeps (κ := κ) (Develops id) (subscribers store cell) := by
  intro w r w' ran
  obtain ⟨-, rfl⟩ := Prod.mk.inj (Option.some.inj ran)
  refine .of_set fun s here => ?_
  rw [here]
  exact .setRegistry cell _ .refl

namespace Scope

theorem develops_set (scope : Scope) (place : Handle) (key : String) (value : Value) :
    Keeps (Develops id) (scope.set perform place key value) := by
  intro w r w' ran
  obtain ⟨e, failed, -⟩ | ⟨s, w₁, found, ran⟩ := bind_eq_some ran
  · cases failed
  have becomes : s.Becomes (s.write place key value).2 := .write place key value .refl
  revert ran becomes
  cases s.write place key value with
  | mk written t =>
    intro ran becomes
    obtain ⟨e, failed, -⟩ | ⟨_, w₂, put, ran⟩ := bind_eq_some ran
    · cases failed
    refine composes_develops.trans (develops_setStore becomes found put) ?_
    cases written with
    | done outcome => exact develops_pure _ _ _ _ ran
    | computed property =>
      cases setter : property.setter with
      | none =>
        simp only [setter] at ran
        exact develops_pure _ _ _ _ ran
      | some code =>
        simp only [setter] at ran
        exact develops_bind (develops_program calls _) (fun _ => develops_pure _) _ _ _ ran
    | cell c =>
      exact develops_bind (develops_subscribers _ c) (fun observers =>
        develops_bind (develops_notify calls _ observers) fun _ => develops_pure _) _ _ _ ran

theorem develops_assign (scope : Scope) (path : String) (value : Value) :
    Keeps (Develops id) (scope.assign perform path value) := by
  refine develops_bind (develops_parentOf calls _ path) fun way =>
    develops_bind (develops_set calls scope way.1 way.2 value) fun outcome => ?_
  cases outcome <;> exact develops_ofExcept _

end Scope

theorem develops_observe (store : StoreId) (path : String) (effect : Effect κ) :
    Keeps (Develops id) (observe perform store path effect) := by
  unfold observe
  split
  · exact develops_ofExcept _
  · exact develops_bind (develops_looking _ fun _ => rfl) fun _ =>
      develops_bind (develops_aside fun _ => rfl) fun _ =>
        develops_bind (develops_pinning _ (Scope.develops_resolve calls _ _)) fun _ =>
          develops_bind (develops_aside fun _ => rfl) fun _ => develops_pure _

namespace View

theorem develops_get (v : ViewId) (path : String) : Keeps (Develops id) (View.get perform v path) :=
  develops_bind (develops_looking _ fun _ => rfl) fun _ => Scope.develops_resolve calls _ path

theorem develops_assign (v : ViewId) (path : String) (value : Value) :
    Keeps (Develops id) (View.set perform v path value) :=
  develops_bind (develops_looking _ fun _ => rfl) fun _ => Scope.develops_assign calls _ path value

theorem develops_call (v : ViewId) (method : String) (event : Event) :
    Keeps (Develops id) (View.call perform v method event) := by
  apply develops_bind (develops_looking _ fun _ => rfl)
  intro view
  cases view.methods.lookup method with
  | none => exact develops_ofExcept _
  | some code => exact develops_program calls _

end View

theorem Listener.develops_hear (event : Event) (listener : Listener κ) :
    Keeps (Develops id) (listener.hear perform event) := by
  cases listener with
  | writeBack view path =>
    exact develops_whileAlive view <| develops_bind (develops_looking _ fun _ => rfl) fun _ =>
      View.develops_assign calls view path _
  | method view name => exact develops_whileAlive view (View.develops_call calls view name event)
  | code run => exact develops_program calls _

theorem NodeRef.develops_dispatch (ref : NodeRef) (event : String) :
    Keeps (Develops id) (ref.dispatch perform event) := by
  apply develops_bind (develops_looking _ fun _ => rfl)
  intro node
  exact develops_pinning _ (Keeps.forM composes_develops fun listener _ =>
    Listener.develops_hear calls ⟨event, ref⟩ listener)

theorem Call.develops_carryOut {host : κ → Run κ Unit}
    (commands : ∀ k, Keeps (Develops id) (host k))
    (c : Call κ) : Keeps (Develops id) (c.carryOut host perform) := by
  cases c with
  | read source path =>
    cases source with
    | scope s => exact Scope.develops_resolve calls s path
    | view v => exact View.develops_get calls v path
  | write source path value =>
    cases source with
    | scope s =>
      exact develops_bind (Scope.develops_assign calls s path value) fun _ => develops_pure _
    | view v =>
      exact develops_bind (View.develops_assign calls v path value) fun _ => develops_pure _
  | formValue ref => exact develops_looking _ fun _ => rfl
  | invoke view method event =>
    exact develops_bind (View.develops_call calls view method event) fun _ => develops_pure _
  | log value => exact develops_bind (develops_aside fun _ => rfl) fun _ => develops_pure _
  | host command => exact develops_bind (commands command) fun _ => develops_pure _

end

/-- What can be asked of stores, by code that the library runs as well: a property at a handle that
was once given out is read or written, or one of the other requests is made. -/
inductive Demand (κ : Type) where
  | get (scope : Scope) (place : Handle) (key : String)
  | set (scope : Scope) (place : Handle) (key : String) (value : Value)
  | request (r : Request κ)

def Demand.run (perform : Performer κ) : Demand κ → Run κ Unit
  | .get scope place key => do let _ ← scope.property? perform place key
  | .set scope place key value => do let _ ← scope.set perform place key value
  | .request r => r.run perform

/-- A host whose commands are demands on the library. -/
def meeting (commands : κ → Demand κ) (_ : Nat) (perform : Performer κ) (command : κ) :
    Run κ Unit :=
  (commands command).run perform

section

variable {perform : Performer κ} (calls : ∀ c, Keeps (Develops id) (perform c))
include calls

theorem Request.develops_run (request : Request κ) : Keeps (Develops id) (request.run perform) := by
  cases request with
  | assign store path value => exact Scope.develops_assign calls _ path value
  | update store o => exact develops_pinning _ (develops_updateObserver calls store o)
  | watch store name path effect =>
    exact develops_bind (develops_observe calls store path effect) fun _ =>
      develops_aside fun _ => rfl
  | define store name property =>
    intro w r w' ran
    obtain ⟨e, failed, -⟩ | ⟨s, w₁, found, ran⟩ := bind_eq_some ran
    · cases failed
    · exact develops_setStore (.defineComputed name property .refl) found ran
  | dispatch node event => exact NodeRef.develops_dispatch calls node event
  | code program => exact develops_program calls program

theorem Demand.develops_run (demand : Demand κ) : Keeps (Develops id) (demand.run perform) := by
  cases demand with
  | get scope place key =>
    exact develops_bind (Scope.develops_property? calls scope place key) fun _ => develops_pure _
  | set scope place key value =>
    exact develops_bind (Scope.develops_set calls scope place key value) fun _ => develops_pure _
  | request r => exact Request.develops_run calls r

end

theorem develops_performer (commands : κ → Demand κ) (levels : Nat) (c : Call κ) :
    Keeps (Develops id) (performer (meeting commands) levels c) := by
  induction levels generalizing c with
  | zero => exact Keeps.exhausted
  | succ levels ih =>
    exact Call.develops_carryOut ih (fun k => Demand.develops_run ih (commands k)) c

/-- What happens after each other: demands that are met, with failures as well, and changes that
leave the one store alone. -/
inductive Dealings (commands : κ → Demand κ) (id : StoreId) (w : World κ) : World κ → Prop
  | start : Dealings commands id w w
  | demand {w₁ w₂ : World κ} {levels : Nat} {demand : Demand κ} {r : Except BindingError Unit} :
      Dealings commands id w w₁ →
      demand.run (performer (meeting commands) levels) w₁ = some (r, w₂) →
      Dealings commands id w w₂
  | elsewhere {w₁ w₂ : World κ} : Dealings commands id w w₁ → w₂.stores[id]? = w₁.stores[id]? →
      Dealings commands id w w₂

theorem Dealings.develops {commands : κ → Demand κ} (served : Dealings commands id w w₁) :
    w.Develops id w₁ := by
  induction served with
  | start => exact .of_stores rfl
  | demand _ met ih =>
    exact composes_develops.trans ih
      (Demand.develops_run (develops_performer commands _) _ _ _ _ met)
  | elsewhere _ same ih => exact composes_develops.trans ih (.of_same same)

/-- At every moment of a run the store that was laid out from data is regular, reading any of its
cells or places ends, and with one value only, and up to any later moment no cell becomes an object,
and an object keeps the cells of its keys as long as it is one. -/
theorem representation_regular (commands : κ → Demand κ) {data : Value} (canonical : data.Canonical)
    (laidOut : w.stores[id]? = some (.ofValue data)) (served : Dealings commands id w w₁)
    (later : Dealings commands id w₁ w₂) :
    ∃ s t, w₁.stores[id]? = some s ∧ w₂.stores[id]? = some t ∧
      s.Regular ∧ (∀ c v, s.Shows c v ↔ v = s.snapshotOf c) ∧
      (∀ place v, s.Holds place v ↔ v = s.valueOf place) ∧
      s.Extends t ∧ ∀ parent key c keys, s.child? parent key = some c →
        t.content parent = .object keys → t.child? parent key = some c := by
  obtain ⟨s, here, becomes⟩ := served.develops _ laidOut
  obtain ⟨t, there, becomes'⟩ := later.develops s here
  have regular := ((Store.Regular.ofValue canonical).becomes becomes).1
  have extended := (regular.becomes becomes').2
  exact ⟨s, t, here, there, regular, regular.toSound.shows_iff, regular.toSound.holds_iff, extended,
    fun _ _ _ _ found object => extended.child? found object⟩

section Orphan

def nest : Value :=
  .object [("a", .object [("b", .object [("c", .string "deep")])])]

/-- The one command of the host reads the outermost property. -/
def peek (_ : Unit) : Demand Unit :=
  .get { store := 0 } (.object 3) "a"

/-- What the outermost property was and is, what was written to the object that is cut off, and the
number of cells. -/
def witnessed (s t : Store (Computed Unit)) : Option String × Bool × Option String × Nat :=
  ((s.snapshot.member? "a").map (·.display), (t.snapshot.member? "a").isSome,
    ((t.snapshotOf 1).member? "d").map (·.display), t.cells.size)

/-- An object that is overwritten leaves one behind that is cut off, and a handle of that one still
writes into it. In the end the place of the first is computed. -/
theorem nest_regular : ∃ (w₁ w₂ : World Unit) (s t : Store (Computed Unit)),
    Dealings peek 0 { stores := #[.ofValue nest] } w₁ ∧ Dealings peek 0 w₁ w₂ ∧
    w₁.stores[0]? = some s ∧ w₂.stores[0]? = some t ∧
    witnessed s t = (some "flat", false, some "late", 5) ∧ s.Regular ∧ s.Extends t := by
  have told : (((Demand.set { store := 0 } (.object 3) "a" (.string "flat")).run
      (performer (meeting peek) 1) { stores := #[.ofValue nest] }).bind fun first =>
        ((Demand.set { store := 0 } (.object 1) "d" (.string "late")).run
          (performer (meeting peek) 1) first.2).bind fun second =>
            ((Demand.request (.define 0 "a" { getter := fun _ => pure .null })).run
              (performer (meeting peek) 1) second.2).bind fun third =>
                first.2.stores[0]?.bind fun s => third.2.stores[0]?.map fun t => witnessed s t) =
      some (some "flat", false, some "late", 5) := by decide +kernel
  obtain ⟨⟨_, w₁⟩, first, told⟩ := Option.bind_eq_some_iff.mp told
  obtain ⟨⟨_, _⟩, second, told⟩ := Option.bind_eq_some_iff.mp told
  obtain ⟨⟨_, w₂⟩, third, told⟩ := Option.bind_eq_some_iff.mp told
  obtain ⟨s, here, told⟩ := Option.bind_eq_some_iff.mp told
  obtain ⟨t, there, seen⟩ := Option.map_eq_some_iff.mp told
  have canonical : nest.Canonical :=
    ⟨.cons (by decide) .nil,
      ⟨.cons (by decide) .nil, ⟨.cons (by decide) .nil, trivial, trivial⟩, trivial⟩,
      trivial⟩
  have served : Dealings peek 0 { stores := #[.ofValue nest] } w₁ := .demand .start first
  have later : Dealings peek 0 w₁ w₂ := (Dealings.start.demand second).demand third
  obtain ⟨s', t', here', there', regular, -, -, extended, -⟩ :=
    representation_regular peek canonical rfl served later
  obtain rfl := Option.some.inj (here.symm.trans here')
  obtain rfl := Option.some.inj (there.symm.trans there')
  exact ⟨w₁, w₂, s, t, served, later, here, there, seen, regular, extended⟩

end Orphan
end ReactiveView
