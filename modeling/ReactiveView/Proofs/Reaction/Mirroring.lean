import ReactiveView.Proofs.Run

/-! Runs that mirror each other. Runs depend on how calls of user code are carried out only through
the answers to those calls: where the calls of one performer have the answers of another, so has
everything that the library does by way of them. The same is said for performers that agree only as
long as something holds of what the observers hold and of the effects started so far. -/
namespace ReactiveView

variable {κ α β : Type}

namespace Run

/-- Whatever the first run answers where the invariant holds is the answer of the second run, and
the invariant holds afterwards. -/
def Mirrors (I : World κ → Prop) (x y : Run κ α) : Prop :=
  ∀ w r w', I w → x w = some (r, w') → I w' ∧ y w = some (r, w')

/-- Nothing about the observers has changed, and no effect was started. -/
structure Elsewhere (w w' : World κ) : Prop where
  observers : w'.observers = w.observers
  journal : w'.journal = w.journal

theorem composes_elsewhere : Composes (κ := κ) Elsewhere :=
  ⟨fun _ => ⟨rfl, rfl⟩, fun first second =>
    ⟨second.observers.trans first.observers, second.journal.trans first.journal⟩⟩

/-- An invariant of what the observers hold and of the effects started so far. A new observer holds
its first value a while after it was made; an update keeps the new value and starts the effect. -/
structure Ledger (I : World κ → Prop) : Prop where
  elsewhere : ∀ {w w'}, Elsewhere w w' → I w → I w'
  made : ∀ {w} observer, I w → I { w with observers := w.observers.push observer }
  captured : ∀ {before w} {o : ObserverId} (value : Value), I before → before.observers.size ≤ o →
    I w → I { w with
      observers := w.observers.modify o fun observer => { observer with value := value } }
  fired : ∀ {w} {o : ObserverId} {observer} {new : Value},
    (∀ found, w.observers[o]? = some found → found = observer) →
    observer.value.strictEq new = false → I w → I { w with
      observers := w.observers.modify o fun observer => { observer with value := new }
      journal := ⟨o, new, observer.value⟩ :: w.journal }

theorem ledger_true : Ledger (κ := κ) fun _ => True :=
  ⟨fun _ _ => trivial, fun _ _ => trivial, fun _ _ _ _ => trivial, fun _ _ _ => trivial⟩

theorem mirrors_true {x y : Run κ α} : Mirrors (fun _ => True) x y ↔ Below x y :=
  ⟨fun mirrors w r ran => (mirrors w r.1 r.2 trivial ran).2,
    fun below w r w' _ ran => ⟨trivial, below w (r, w') ran⟩⟩

namespace Mirrors

variable {I : World κ → Prop}

theorem exhausted (x : Run κ α) : Mirrors I Run.exhausted x := by
  intro _ _ _ _ ran
  cases ran

theorem bind {x y : Run κ α} {f g : α → Run κ β} (first : Mirrors I x y)
    (then_ : ∀ a, Mirrors I (f a) (g a)) : Mirrors I (x >>= f) (y >>= g) := by
  intro w r w' holds ran
  obtain ⟨e, failed, rfl⟩ | ⟨a, w₁, done, rest⟩ := bind_eq_some ran
  · obtain ⟨after, same⟩ := first _ _ _ holds failed
    exact ⟨after, bind_of_error same g⟩
  · obtain ⟨between, same⟩ := first _ _ _ holds done
    rw [bind_of_ok same]
    exact then_ a _ _ _ between rest

theorem program {perform perform' : Performer κ}
    (calls : ∀ c, Mirrors I (perform c) (perform' c)) (p : Program κ α) :
    Mirrors I (p.run perform) (p.run perform') := by
  induction p with
  | done r =>
    intro w _ w' holds ran
    obtain ⟨-, rfl⟩ := Prod.mk.inj (Option.some.inj ran)
    exact ⟨holds, ran⟩
  | call c next ih =>
    intro w r w' holds ran
    simp only [Program.run] at ran ⊢
    cases first : perform c w with
    | none => simp [first] at ran
    | some answer =>
      simp only [first] at ran
      obtain ⟨between, same⟩ := calls c _ _ _ holds first
      simp only [same]
      exact ih answer.1 _ _ _ between ran

section

variable (ledger : Ledger I)
include ledger

/-- A run that touches no observer and starts no effect mirrors itself. -/
theorem self {x : Run κ α} (still : Keeps Elsewhere x) : Mirrors I x x :=
  fun _ _ _ holds ran => ⟨ledger.elsewhere (still _ _ _ ran) holds, ran⟩

theorem pure (a : α) : Mirrors I (Pure.pure a) (Pure.pure a) :=
  self ledger (Keeps.pure composes_elsewhere a)

theorem ofExcept (r : Except BindingError α) : Mirrors I (Run.ofExcept r) (Run.ofExcept r) :=
  self ledger (Keeps.ofExcept composes_elsewhere r)

theorem inspect (f : World κ → α) :
    Mirrors I (do return f (← Run.world)) (do return f (← Run.world)) :=
  self ledger (Keeps.inspect composes_elsewhere f)

theorem modify {f : World κ → World κ} (still : ∀ w, Elsewhere w (f w)) :
    Mirrors I (Run.modify f) (Run.modify f) :=
  self ledger (Keeps.modify still)

theorem forM {f g : α → Run κ PUnit} (each : ∀ a, Mirrors I (f a) (g a)) (items : List α) :
    Mirrors I (items.forM f) (items.forM g) := by
  induction items with
  | nil => exact pure ledger _
  | cons a rest ih => exact bind (each a) fun _ => ih

theorem mapM {f g : α → Run κ β} (each : ∀ a, Mirrors I (f a) (g a)) (items : List α) :
    Mirrors I (items.mapM f) (items.mapM g) := by
  induction items with
  | nil => exact pure ledger _
  | cons a rest ih =>
    simp only [List.mapM_cons]
    exact bind (each a) fun _ => bind ih fun _ => pure ledger _

theorem pinning {x y : Run κ α} (pins : List Pin) (inner : Mirrors I x y) :
    Mirrors I (Run.pinning pins x) (Run.pinning pins y) := by
  intro w r w' holds ran
  obtain ⟨after, answer, rfl⟩ := pinning_eq_some ran
  have pinned : Elsewhere w { w with pins := pins ++ w.pins } := ⟨rfl, rfl⟩
  have unpinned : Elsewhere after { after with pins := w.pins } := ⟨rfl, rfl⟩
  obtain ⟨held, same⟩ := inner _ _ _ (ledger.elsewhere pinned holds) answer
  exact ⟨ledger.elsewhere unpinned held, by simp only [Run.pinning, same, Option.map_some]⟩

theorem whileAlive {x y : Run κ Unit} (v : ViewId) (inner : Mirrors I x y) :
    Mirrors I (Run.whileAlive v x) (Run.whileAlive v y) := by
  refine bind (inspect ledger fun w => w) fun w => ?_
  split
  · exact pinning ledger _ inner
  · exact pure ledger _

end

end Mirrors
end Run

open Run

variable {I : World κ → Prop} {perform perform' : Performer κ}

section

variable (ledger : Ledger I) (calls : ∀ c, Mirrors I (perform c) (perform' c))
include ledger calls

namespace Scope

omit calls in
theorem register_mirrors (scope : Scope) (cell : CellId) :
    Mirrors I (scope.register cell) (scope.register cell) := by
  unfold register
  cases scope.tracker with
  | none => exact Mirrors.pure ledger _
  | some o =>
    exact Mirrors.bind (Mirrors.inspect ledger _) fun _ =>
      Mirrors.modify ledger fun _ => ⟨rfl, rfl⟩

theorem property?_mirrors (scope : Scope) (parent : Handle) (key : String) :
    Mirrors I (scope.property? perform parent key) (scope.property? perform' parent key) := by
  refine Mirrors.bind (Mirrors.inspect ledger _) fun s => ?_
  cases s.find parent key with
  | missing => exact Mirrors.pure ledger _
  | inside _ => exact Mirrors.pure ledger _
  | cell id =>
    exact Mirrors.bind (register_mirrors ledger scope id) fun _ =>
      Mirrors.bind (Mirrors.inspect ledger _) fun _ => Mirrors.pure ledger _
  | computed id property =>
    exact Mirrors.bind (register_mirrors ledger scope id) fun _ =>
      Mirrors.bind (Mirrors.program calls _) fun _ => Mirrors.pure ledger _

theorem walk_mirrors (scope : Scope) (path : String) (keys : List String) (place : Handle) :
    Mirrors I (scope.walk perform path keys place) (scope.walk perform' path keys place) := by
  induction keys generalizing place with
  | nil => exact Mirrors.pure ledger _
  | cons key rest ih =>
    refine Mirrors.bind (property?_mirrors ledger calls scope place key) fun next => ?_
    cases next with
    | none => exact Mirrors.ofExcept ledger _
    | some next => exact ih next

theorem parentOf_mirrors (scope : Scope) (path : String) :
    Mirrors I (scope.parentOf perform path) (scope.parentOf perform' path) :=
  Mirrors.bind (Mirrors.ofExcept ledger _) fun _ => Mirrors.bind (Mirrors.inspect ledger _) fun _ =>
    Mirrors.bind (walk_mirrors ledger calls scope path _ _) fun _ => Mirrors.pure ledger _

theorem resolve_mirrors (scope : Scope) (path : String) :
    Mirrors I (scope.resolve perform path) (scope.resolve perform' path) := by
  refine Mirrors.bind (parentOf_mirrors ledger calls scope path) fun way => ?_
  refine Mirrors.bind (property?_mirrors ledger calls scope way.1 way.2) fun found => ?_
  cases found with
  | some place => exact Mirrors.bind (Mirrors.inspect ledger _) fun _ => Mirrors.pure ledger _
  | none =>
    refine Mirrors.bind (Mirrors.inspect ledger _) fun s => ?_
    split
    · exact Mirrors.ofExcept ledger _
    · exact Mirrors.pure ledger _

end Scope

theorem renderFrom_mirrors (store : StoreId) (template : List Piece) :
    Mirrors I (renderFrom perform store template) (renderFrom perform' store template) := by
  refine Mirrors.bind (Mirrors.mapM ledger (fun piece => ?_) template) fun _ =>
    Mirrors.pure ledger _
  cases piece with
  | literal c => exact Mirrors.pure ledger _
  | slot path =>
    exact Mirrors.bind (Scope.resolve_mirrors ledger calls _ path) fun _ => Mirrors.pure ledger _

theorem Effect.fire_mirrors (effect : Effect κ) (new old : Value) :
    Mirrors I (effect.fire perform new old) (effect.fire perform' new old) := by
  cases effect with
  | template view target pieces =>
    exact Mirrors.whileAlive ledger view <| Mirrors.bind (Mirrors.inspect ledger _) fun _ =>
      Mirrors.bind (renderFrom_mirrors ledger calls _ pieces) fun _ =>
        Mirrors.modify ledger fun _ => ⟨rfl, rfl⟩
  | code run => exact Mirrors.program calls _
  | viewCode view run => exact Mirrors.whileAlive ledger view (Mirrors.program calls _)
  | formValue _ => exact Mirrors.modify ledger fun _ => ⟨rfl, rfl⟩
  | html _ => exact Mirrors.modify ledger fun _ => ⟨rfl, rfl⟩
  | text _ => exact Mirrors.modify ledger fun _ => ⟨rfl, rfl⟩

/-- Between the moment at which an update keeps the new value and the start of the effect, no
user code runs. -/
theorem updateObserver_mirrors (store : StoreId) (o : ObserverId) :
    Mirrors I (updateObserver perform store o) (updateObserver perform' store o) := by
  refine Mirrors.bind (Mirrors.inspect ledger _) fun first =>
    Mirrors.bind (Scope.resolve_mirrors ledger calls _ _) fun new => ?_
  intro w r w' holds ran
  obtain ⟨observer, looked, known⟩ := observer_run o w
  rw [bind_of_ok looked] at ran ⊢
  split at ran
  · rename_i equal
    rw [if_pos equal]
    exact Mirrors.pure ledger _ _ _ _ holds ran
  · rename_i differs
    rw [if_neg differs]
    exact Effect.fire_mirrors ledger calls _ _ _ _ _ _
      (ledger.fired known (Bool.eq_false_iff.mpr differs) holds) ran

theorem notify_mirrors (store : StoreId) (observers : List ObserverId) :
    Mirrors I (notify perform store observers) (notify perform' store observers) :=
  Mirrors.pinning ledger _
    (Mirrors.forM ledger (updateObserver_mirrors ledger calls store) observers)

theorem observe_mirrors (store : StoreId) (path : String) (effect : Effect κ) :
    Mirrors I (observe perform store path effect) (observe perform' store path effect) := by
  unfold observe
  split
  · exact Mirrors.ofExcept ledger _
  · intro w r w' holds ran
    have captured : Mirrors I
        (Run.pinning [.observer w.observers.size]
          (Scope.resolve perform { store, tracker := some w.observers.size } path))
        (Run.pinning [.observer w.observers.size]
          (Scope.resolve perform' { store, tracker := some w.observers.size } path)) :=
      Mirrors.pinning ledger _ (Scope.resolve_mirrors ledger calls _ path)
    have kept : ∀ initial, Mirrors I (Run.setObserved w.observers.size initial)
        (Run.setObserved w.observers.size initial) := by
      intro initial w₁ _ w₂ holds₁ ran
      obtain ⟨-, rfl⟩ := Prod.mk.inj (Option.some.inj ran)
      exact ⟨ledger.captured initial holds (Nat.le_refl _) holds₁, ran⟩
    exact (captured.bind fun initial => (kept initial).bind fun _ => Mirrors.pure ledger _) _ _ _
      (ledger.made _ holds) ran

namespace Scope

theorem set_mirrors (scope : Scope) (parent : Handle) (key : String) (value : Value) :
    Mirrors I (scope.set perform parent key value) (scope.set perform' parent key value) := by
  refine Mirrors.bind (Mirrors.inspect ledger _) fun s => ?_
  cases s.write parent key value with
  | mk written s =>
    refine Mirrors.bind (Mirrors.modify ledger fun _ => ⟨rfl, rfl⟩) fun _ => ?_
    cases written with
    | done outcome => exact Mirrors.pure ledger _
    | computed property =>
      cases setter : property.setter with
      | none => simp only [setter]; exact Mirrors.pure ledger _
      | some code =>
        simp only [setter]
        exact Mirrors.bind (Mirrors.program calls _) fun _ => Mirrors.pure ledger _
    | cell id =>
      have told : Mirrors I (subscribers scope.store id) (subscribers scope.store id) :=
        Mirrors.bind (Mirrors.inspect ledger fun w => w) fun _ =>
          Mirrors.bind (Mirrors.inspect ledger _) fun _ =>
            Mirrors.bind (Mirrors.modify ledger fun _ => ⟨rfl, rfl⟩) fun _ => Mirrors.pure ledger _
      exact Mirrors.bind told fun _ =>
        Mirrors.bind (notify_mirrors ledger calls scope.store _) fun _ => Mirrors.pure ledger _

theorem assign_mirrors (scope : Scope) (path : String) (value : Value) :
    Mirrors I (scope.assign perform path value) (scope.assign perform' path value) := by
  refine Mirrors.bind (parentOf_mirrors ledger calls _ path) fun way =>
    Mirrors.bind (set_mirrors ledger calls scope way.1 way.2 value) fun outcome => ?_
  cases outcome <;> exact Mirrors.ofExcept ledger _

end Scope

theorem Call.carryOut_mirrors {host host' : κ → Run κ Unit}
    (commands : ∀ k, Mirrors I (host k) (host' k)) (c : Call κ) :
    Mirrors I (c.carryOut host perform) (c.carryOut host' perform') := by
  cases c with
  | read source path =>
    cases source with
    | scope s => exact Scope.resolve_mirrors ledger calls s path
    | view v =>
      exact Mirrors.bind (Mirrors.inspect ledger _) fun _ =>
        Scope.resolve_mirrors ledger calls _ path
  | write source path value =>
    cases source with
    | scope s =>
      exact Mirrors.bind (Scope.assign_mirrors ledger calls s path value) fun _ =>
        Mirrors.pure ledger _
    | view v =>
      exact Mirrors.bind (Mirrors.bind (Mirrors.inspect ledger _) fun _ =>
        Scope.assign_mirrors ledger calls _ path value) fun _ => Mirrors.pure ledger _
  | invoke view method event =>
    refine Mirrors.bind (Mirrors.bind (Mirrors.inspect ledger _) fun v => ?_) fun _ =>
      Mirrors.pure ledger _
    cases v.methods.lookup method with
    | none => exact Mirrors.ofExcept ledger _
    | some code => exact Mirrors.program calls _
  | host command => exact Mirrors.bind (commands command) fun _ => Mirrors.pure ledger _
  | formValue ref =>
    have found : Mirrors I (Run.node ref) (Run.node ref) :=
      Mirrors.bind (Mirrors.inspect ledger _) fun _ => Mirrors.pure ledger _
    exact Mirrors.bind found fun _ => Mirrors.pure ledger _
  | log _ =>
    exact Mirrors.bind (Mirrors.modify ledger fun _ => ⟨rfl, rfl⟩) fun _ => Mirrors.pure ledger _

end

/-! A run that has an answer has it under any performer that gives the answers it used. -/

theorem observe_below (calls : ∀ c, Below (perform c) (perform' c)) (store : StoreId)
    (path : String) (effect : Effect κ) :
    Below (observe perform store path effect) (observe perform' store path effect) :=
  mirrors_true.mp
    (observe_mirrors ledger_true (fun c => mirrors_true.mpr (calls c)) store path effect)

/-- A call has the same answer when more of the calls inside it have answers. -/
theorem Call.carryOut_below {host host' : κ → Run κ Unit} (commands : ∀ c, Below (host c) (host' c))
    (calls : ∀ c, Below (perform c) (perform' c)) (c : Call κ) :
    Below (c.carryOut host perform) (c.carryOut host' perform') :=
  mirrors_true.mp (Call.carryOut_mirrors ledger_true (fun c => mirrors_true.mpr (calls c))
    (fun k => mirrors_true.mpr (commands k)) c)

end ReactiveView
