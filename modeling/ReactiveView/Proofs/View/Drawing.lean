import ReactiveView.Proofs.Document.Confinement
import ReactiveView.Proofs.Reaction.Idling
import ReactiveView.Proofs.Reaction.Pass
import ReactiveView.Proofs.View.Effects
import ReactiveView.Proofs.View.Intact

/-! What a pass over bindings draws. Each observer that is told writes to its own node, and an
observer of `v-text` or `v-html` also replaces what hangs below. All targets are held while the pass
lasts, so no slot that is taken anew belongs to a node that something still refers to or that the
tree holds. -/
namespace ReactiveView

variable {κ : Type} {perform : Performer κ} {id : StoreId} {v : ViewId}

/-- An effect as bindings have it, which renders a template from the data of the view only. Other
effects of bindings name no view. -/
def Effect.Binds (v : ViewId) : Effect κ → Prop
  | .formValue _ | .html _ | .text _ => True
  | .template view _ _ => view = v
  | .code _ | .viewCode _ _ => False

namespace World

open Document Run

variable {w w' w₁ w₂ : World κ} {told : List ObserverId} {o : ObserverId}
  {r : Except BindingError Unit}

/-- The children of the node are replaced by an observer that is told. -/
def Opened (w : World κ) (told : List ObserverId) (d : DocumentId) (n : NodeId) : Prop :=
  ∃ o ∈ told, ∃ path, w.Observed o path (.html ⟨d, n⟩) ∨ w.Observed o path (.text ⟨d, n⟩)

/-- An observer that is told writes to the node, or replaces what the node is part of. -/
def Touched (w : World κ) (told : List ObserverId) (d : DocumentId) (doc : Document (Listener κ))
    (n : NodeId) : Prop :=
  (∃ o ∈ told, ∃ path effect, w.Observed o path effect ∧ effect.target? = some ⟨d, n⟩) ∨
    ∃ t, w.Opened told d t ∧ Above doc t n

/-- What observers may do to a world while they are told. -/
structure Drawn (told : List ObserverId) (w w' : World κ) : Prop where
  stores : w'.stores = w.stores
  views : w'.views = w.views
  names : w'.names = w.names
  pins : ∀ pin ∈ w.pins, pin ∈ w'.pins
  observed : ∀ o path effect, w'.Observed o path effect ↔ w.Observed o path effect
  size : w'.documents.size = w.documents.size
  documents : ∀ (d : DocumentId) doc, w.documents[d]? = some doc →
    ∃ doc', w'.documents[d]? = some doc' ∧ doc'.WellFormed ∧
      Confined (fun n => w.held ⟨d, n⟩) (w.Opened told d) (w.Touched told d doc) doc doc'

namespace Drawn

theorem refl (intact : w.Intact) : Drawn told w w where
  stores := rfl
  views := rfl
  names := rfl
  pins _ pinned := pinned
  observed _ _ _ := .rfl
  size := rfl
  documents d doc there := ⟨doc, there, intact.formed d doc there, .refl doc⟩

theorem holdsOn (drawn : Drawn told w w') : HoldsOn w w' :=
  .of_pins drawn.names drawn.pins drawn.views fun _ _ _ => (drawn.observed _ _ _).mpr

/-- Pins, values and records do not count. -/
theorem still (drawn : Drawn told w w₁) (stores : w₂.stores = w₁.stores)
    (views : w₂.views = w₁.views) (names : w₂.names = w₁.names)
    (pins : ∀ pin ∈ w.pins, pin ∈ w₂.pins)
    (observed : ∀ o path effect, w₂.Observed o path effect ↔ w₁.Observed o path effect)
    (documents : w₂.documents = w₁.documents) : Drawn told w w₂ where
  stores := stores.trans drawn.stores
  views := views.trans drawn.views
  names := names.trans drawn.names
  pins := pins
  observed o path effect := (observed o path effect).trans (drawn.observed o path effect)
  size := documents ▸ drawn.size
  documents := documents ▸ drawn.documents

/-- One document is changed within the bounds. -/
theorem edit (drawn : Drawn told w w₁) {d : DocumentId}
    {f : Document (Listener κ) → Document (Listener κ)}
    (step : ∀ doc doc₁, w.documents[d]? = some doc → doc₁.WellFormed →
      Confined (fun n => w.held ⟨d, n⟩) (w.Opened told d) (w.Touched told d doc) doc doc₁ →
        (f doc₁).WellFormed ∧
          Confined (fun n => w.held ⟨d, n⟩) (w.Opened told d)
            (w.Touched told d doc) doc₁ (f doc₁)) :
    Drawn told w { w₁ with documents := w₁.documents.modify d f } where
  stores := drawn.stores
  views := drawn.views
  names := drawn.names
  pins := drawn.pins
  observed := drawn.observed
  size := Array.size_modify.trans drawn.size
  documents other doc there := by
    obtain ⟨doc₁, there₁, formed, confined⟩ := drawn.documents other doc there
    rw [Array.getElem?_modify]
    by_cases here : d = other
    · subst here
      obtain ⟨formed', confined'⟩ := step doc doc₁ there formed confined
      refine ⟨f doc₁, ?_, formed', confined.trans confined'⟩
      rw [if_pos rfl, there₁, Option.map_some]
    · rw [if_neg here]
      exact ⟨doc₁, there₁, formed, confined⟩

/-- A value that an observer keeps changes neither its path nor its effect. -/
theorem observed_modify (w : World κ) (p : ObserverId) (new : Value) (journal : List Firing)
    {path : String} {effect : Effect κ} :
    Observed { w with
      observers := w.observers.modify p fun observer => { observer with value := new }
      journal := journal } o path effect ↔ w.Observed o path effect := by
  simp only [Observed, Array.getElem?_modify]
  by_cases same : p = o
  · subst same
    simp only [if_true]
    constructor
    · rintro ⟨value, found⟩
      obtain ⟨observer, was, same⟩ := Option.map_eq_some_iff.mp found
      cases same
      exact ⟨observer.value, was⟩
    · rintro ⟨value, found⟩
      exact ⟨new, by rw [found, Option.map_some]⟩
  · simp only [same, if_false]

theorem keep (drawn : Drawn told w w₁) (o : ObserverId) (new : Value) (firing : Firing) :
    Drawn told w { w₁ with
      observers := w₁.observers.modify o fun observer => { observer with value := new }
      journal := firing :: w₁.journal } :=
  drawn.still rfl rfl rfl drawn.pins (fun _ _ _ => observed_modify w₁ o new _) rfl

theorem pin (drawn : Drawn told w w₁) (pins : List Pin) :
    Drawn told w { w₁ with pins := pins ++ w₁.pins } :=
  drawn.still rfl rfl rfl (fun pin was => List.mem_append_right _ (drawn.pins pin was))
    (fun _ _ _ => .rfl) rfl

/-- What is held has a slot, whatever was drawn before. -/
theorem bounded (intact : w.Intact) {d : DocumentId} {doc doc₁ : Document (Listener κ)}
    (there : w.documents[d]? = some doc) (grown : doc.size ≤ doc₁.size) :
    ∀ n, w.held ⟨d, n⟩ = true → n < doc₁.size := by
  intro n isHeld
  obtain ⟨doc', there', inside⟩ := intact.inside ⟨d, n⟩ isHeld
  obtain rfl := Option.some.inj (there.symm.trans there')
  exact Nat.lt_of_lt_of_le inside grown

section Effects

variable {s : Store (Computed κ)} {path : String} {effect : Effect κ}
variable (intact : w.Intact) (drawn : Drawn told w w₁) (member : o ∈ told)
variable (alive : w.observerAlive o = true) (observed : w.Observed o path effect)
include intact drawn member alive observed

/-- The target is held and may be written to. -/
theorem of_target {d : DocumentId} {n : NodeId} (target : effect.target? = some ⟨d, n⟩)
    {f : (NodeId → Bool) → Document (Listener κ) → Document (Listener κ)}
    (step : ∀ held doc doc₁, w.documents[d]? = some doc → doc₁.WellFormed →
      (∀ m, w.held ⟨d, m⟩ = true → held m = true) → (∀ m, w.held ⟨d, m⟩ = true → m < doc₁.size) →
      n < doc₁.size → w.Touched told d doc n →
      Confined (fun m => w.held ⟨d, m⟩) (w.Opened told d) (w.Touched told d doc) doc doc₁ →
        (f held doc₁).WellFormed ∧ Confined (fun m => w.held ⟨d, m⟩) (w.Opened told d)
          (w.Touched told d doc) doc₁ (f held doc₁)) :
    Drawn told w { w₁ with documents := w₁.documents.modify d (f fun m => w₁.held ⟨d, m⟩) } := by
  have isHeld : w.held ⟨d, n⟩ = true :=
    held_iff.mpr (.inr (.inr ⟨o, path, effect, alive, observed, target⟩))
  apply drawn.edit
  intro doc doc₁ there formed confined
  have bounded := bounded intact there confined.grown
  apply step _ doc doc₁ there formed _ bounded (bounded n isHeld) _ confined
  · intro m
    exact drawn.holdsOn.held
  · exact .inl ⟨o, member, path, effect, observed, target⟩

/-- A template is shown by a text node, which takes the text itself. -/
theorem label {view : ViewId} {target : NodeRef} {pieces : List Piece}
    (renders : effect = .template view target pieces) (text : String) :
    Drawn told w { w₁ with
      documents := w₁.documents.modify target.document fun doc =>
        doc.setTextContent (fun n => w₁.held ⟨target.document, n⟩) target.node text } := by
  subst renders
  have isHeld : w.held target = true :=
    held_iff.mpr (.inr (.inr ⟨o, path, _, alive, observed, rfl⟩))
  apply drawn.of_target intact member alive observed (n := target.node) rfl
    (f := fun held doc => doc.setTextContent held target.node text)
  intro held doc doc₁ there formed _ _ inside touched confined
  constructor
  · exact formed.setTextContent held inside _
  · obtain ⟨doc', there', isText⟩ := intact.texts o path view target pieces alive observed
    obtain rfl := Option.some.inj (there.symm.trans there')
    have kind : (doc₁.node target.node).kind = .text :=
      (confined.kind target.node (.held isHeld)).trans isText
    have isData : (doc₁.node target.node).isCharacterData = true := by
      simp only [Node.isCharacterData, kind, decide_true, Bool.true_or]
    simp only [setTextContent, isData, if_true]
    exact confined_setData touched _

/-- The effect of a binding draws within the bounds, also if it fails. -/
theorem fire (shows : w.Shows id v) (here : w.stores[id]? = some s) (plain : s.Plain)
    (binds : effect.Binds v) {new old : Value}
    (ran : effect.fire perform new old w₁ = some (r, w₂)) : Drawn told w w₂ := by
  cases effect with
  | formValue target =>
    obtain ⟨-, rfl⟩ := Prod.mk.inj (Option.some.inj ran)
    apply drawn.of_target intact member alive observed (n := target.node) rfl
      (f := fun _ doc => doc.setValue target.node new.propertyText)
    intro _ doc doc₁ there formed _ _ inside touched _
    constructor
    · exact formed.sameForest (setValue_spec inside _).1
    · exact confined_setValue touched _
  | html target =>
    obtain ⟨-, rfl⟩ := Prod.mk.inj (Option.some.inj ran)
    apply drawn.of_target intact member alive observed (n := target.node) rfl
      (f := fun held doc => doc.setInnerHtml held target.node new.propertyText)
    intro held doc doc₁ there formed more bounded inside touched _
    constructor
    · exact formed.setInnerHtml held inside _
    · exact confined_setInnerHtml more formed bounded inside ⟨o, member, path,
        .inl observed⟩ touched _
  | text target =>
    have isOpen : w.Opened told target.document target.node := ⟨o, member, path, .inr observed⟩
    obtain ⟨-, rfl⟩ := Prod.mk.inj (Option.some.inj ran)
    apply drawn.of_target intact member alive observed (n := target.node) rfl
      (f := fun held doc => doc.setTextContent held target.node new.propertyText)
    intro held doc doc₁ there formed more bounded inside touched confined
    constructor
    · exact formed.setTextContent held inside _
    · apply confined_setTextContent more formed bounded inside isOpen touched
      intro c parent
      by_cases secure : Secure (fun m => w.held ⟨target.document, m⟩)
          (w.Opened told target.document) doc₁ c
      · have before := confined.parent_before c _ (confined.secure.mp secure) parent
        exact .inl (.inr ⟨target.node, isOpen, .parent before⟩)
      · exact .inr secure
  | template view target pieces =>
    obtain rfl : view = v := binds
    obtain ⟨made, found, rfl⟩ := shows
    have found' : w₁.views[view]? = some made := drawn.views ▸ found
    have here' : w₁.stores[made.store]? = some s := drawn.stores ▸ here
    obtain ⟨-, rfl⟩ | ⟨-, inner, rendered, rfl⟩ := whileAlive_eq_some ran
    · exact drawn
    · rw [renderTo_run (by exact found') plain (by exact here')] at rendered
      split at rendered
      · obtain ⟨-, rfl⟩ := Prod.mk.inj (Option.some.inj rendered)
        exact drawn
      · rename_i text _
        obtain ⟨-, rfl⟩ := Prod.mk.inj (Option.some.inj rendered)
        have labelled := (drawn.pin [.view view]).label intact member alive observed rfl text
        exact labelled.still rfl rfl rfl drawn.pins (fun _ _ _ => .rfl) rfl
  | _ => cases binds

end Effects

/-- The effect of a binding always comes to an end. -/
theorem fire_returns (drawn : Drawn told w w₁) (shows : w.Shows id v) {s : Store (Computed κ)}
    (here : w.stores[id]? = some s) (plain : s.Plain) {effect : Effect κ} (binds : effect.Binds v)
    (new old : Value) : ∃ r w₂, effect.fire perform new old w₁ = some (r, w₂) := by
  cases effect with
  | formValue target => exact ⟨_, _, rfl⟩
  | html target => exact ⟨_, _, rfl⟩
  | text target => exact ⟨_, _, rfl⟩
  | template view target pieces =>
    obtain rfl : view = v := binds
    obtain ⟨made, found, rfl⟩ := shows
    have found' : w₁.views[view]? = some made := drawn.views ▸ found
    have here' : w₁.stores[made.store]? = some s := drawn.stores ▸ here
    simp only [Effect.fire, whileAlive]
    rw [bind_of_ok (show Run.world w₁ = some (.ok w₁, w₁) from rfl)]
    split
    · unfold pinning
      rw [renderTo_run (by exact found') plain (by exact here')]
      split <;> exact ⟨_, _, rfl⟩
    · exact ⟨_, _, rfl⟩
  | _ => cases binds

/-- The update of an observer whose path and effect are as they were before. -/
theorem update_run (drawn : Drawn told w w₁) {s : Store (Computed κ)}
    (here : w.stores[id]? = some s) (plain : s.Plain) {path : String} {effect : Effect κ}
    (observed : w.Observed o path effect) :
    ∃ value, w₁.observers[o]? = some { path, value, effect } ∧
      updateObserver perform id o w₁ = match s.read path with
        | .error e => some (.error e, w₁)
        | .ok new =>
          if value.strictEq new then some (.ok (), w₁)
          else effect.fire perform new value { w₁ with
            observers := w₁.observers.modify o fun observer => { observer with value := new }
            journal := ⟨o, new, value⟩ :: w₁.journal } := by
  have here' : w₁.stores[id]? = some s := drawn.stores ▸ here
  obtain ⟨observer, known, updated⟩ := updateObserver_run perform plain here' o
  obtain ⟨value, found⟩ := (drawn.observed o path effect).mpr observed
  obtain rfl := known _ found
  exact ⟨value, found, updated⟩

section Passes

variable {s : Store (Computed κ)} (intact : w.Intact) (shows : w.Shows id v)
variable (here : w.stores[id]? = some s) (plain : s.Plain)
variable (bound : ∀ o ∈ told, w.observerAlive o = true ∧ ∃ path effect,
  w.Observed o path effect ∧ effect.Binds v)
include intact shows here plain bound

theorem update (drawn : Drawn told w w₁) (member : o ∈ told)
    (ran : updateObserver perform id o w₁ = some (r, w₂)) : Drawn told w w₂ := by
  obtain ⟨alive, path, effect, observed, binds⟩ := bound o member
  obtain ⟨value, found, updated⟩ := drawn.update_run here plain observed
  rw [updated] at ran
  split at ran
  · obtain ⟨-, rfl⟩ := Prod.mk.inj (Option.some.inj ran)
    exact drawn
  · rename_i new _
    split at ran
    · obtain ⟨-, rfl⟩ := Prod.mk.inj (Option.some.inj ran)
      exact drawn
    · have kept := drawn.keep o new ⟨o, new, value⟩
      exact kept.fire intact member alive observed shows here plain binds ran

omit intact in
theorem update_returns (drawn : Drawn told w w₁) (member : o ∈ told) :
    ∃ r w₂, updateObserver perform id o w₁ = some (r, w₂) := by
  obtain ⟨-, path, effect, observed, binds⟩ := bound o member
  obtain ⟨value, found, updated⟩ := drawn.update_run here plain observed
  rw [updated]
  split
  · exact ⟨_, _, rfl⟩
  · rename_i new _
    split
    · exact ⟨_, _, rfl⟩
    · exact (drawn.keep o new ⟨o, new, value⟩).fire_returns shows here plain binds new value

/-- Every update stays within the bounds, so the pass does, however far it gets. -/
theorem updateAll {rest : List ObserverId} (listed : rest ⊆ told) (drawn : Drawn told w w₁)
    (ran : rest.forM (updateObserver perform id) w₁ = some (r, w₂)) : Drawn told w w₂ := by
  induction rest generalizing w₁ with
  | nil =>
    obtain ⟨-, rfl⟩ := Prod.mk.inj (Option.some.inj ran)
    exact drawn
  | cons o rest ih =>
    have member : o ∈ told := listed List.mem_cons_self
    obtain ⟨e, failed, -⟩ | ⟨_, w₃, first, further⟩ := bind_eq_some ran
    · exact drawn.update intact shows here plain bound member failed
    · apply ih _ _ further
      · exact fun p later => listed (List.mem_cons_of_mem o later)
      · exact drawn.update intact shows here plain bound member first

theorem updateAll_returns (perform : Performer κ) {rest : List ObserverId} (listed : rest ⊆ told)
    (drawn : Drawn told w w₁) :
    ∃ r w₂, rest.forM (updateObserver perform id) w₁ = some (r, w₂) := by
  induction rest generalizing w₁ with
  | nil => exact ⟨_, _, rfl⟩
  | cons o rest ih =>
    have member : o ∈ told := listed List.mem_cons_self
    obtain ⟨r, w₃, first⟩ := drawn.update_returns shows here plain bound member
    have ended := drawn.update intact shows here plain bound member first
    cases r with
    | error e => exact ⟨_, _, bind_of_error first _⟩
    | ok _ =>
      obtain ⟨r', w₂, further⟩ := ih (fun p later => listed (List.mem_cons_of_mem o later)) ended
      exact ⟨r', w₂, (bind_of_ok first _).trans further⟩

theorem notify_returns (perform : Performer κ) :
    ∃ r w', ReactiveView.notify perform id told w = some (r, w') := by
  have start : Drawn told w { w with pins := told.map .observer ++ w.pins } :=
    (Drawn.refl intact).pin _
  obtain ⟨r, inner, answer⟩ :=
    start.updateAll_returns intact shows here plain bound perform (List.Subset.refl told)
  refine ⟨r, { inner with pins := w.pins }, ?_⟩
  simp only [ReactiveView.notify, pinning, answer, Option.map_some]

theorem notify (ran : ReactiveView.notify perform id told w = some (r, w')) :
    Drawn told w w' ∧ w'.pins = w.pins := by
  obtain ⟨inner, answer, rfl⟩ := pinning_eq_some ran
  have start : Drawn told w { w with pins := told.map .observer ++ w.pins } :=
    (Drawn.refl intact).pin _
  have ended := start.updateAll intact shows here plain bound (List.Subset.refl told) answer
  exact ⟨ended.still rfl rfl rfl (fun _ was => was) (fun _ _ _ => .rfl) rfl, rfl⟩

end Passes

/-- What hangs below the root or below a node that is held is left alone unless it is touched. -/
theorem spares (intact : w.Intact) (drawn : Drawn told w w') {d : DocumentId}
    {doc : Document (Listener κ)} (there : w.documents[d]? = some doc) {n : NodeId}
    (sheltered : Sheltered (fun n => w.held ⟨d, n⟩) doc n) :
    ∃ doc', w'.documents[d]? = some doc' ∧
      ((doc'.node n).content = (doc.node n).content ∨ w.Touched told d doc n) := by
  obtain ⟨doc', there', -, confined⟩ := drawn.documents d doc there
  refine ⟨doc', there', ?_⟩
  obtain same | touched | below := confined.sheltered (intact.formed d doc there) sheltered
  · exact .inl same
  · exact .inr touched
  · exact .inr (.inr below)

theorem grows (drawn : Drawn told w w') : Grows w w' := by
  refine ⟨drawn.holdsOn, ?_⟩
  intro d doc there
  obtain ⟨doc', there', -, confined⟩ := drawn.documents d doc there
  exact ⟨doc', there', confined.grown, fun n isHeld => confined.kind n (.held isHeld)⟩

/-- When the pass is over the world is in order again. -/
theorem intact (drawn : Drawn told w w') (pins : w'.pins = w.pins) (intact : w.Intact) :
    w'.Intact := by
  have back : HoldsOn w' w :=
    .of_pins drawn.names.symm (fun _ pinned => pins ▸ pinned) drawn.views.symm fun _ _ _ =>
      (drawn.observed _ _ _).mp
  constructor
  · intro d doc' there'
    obtain ⟨inside, -⟩ := Array.getElem?_eq_some_iff.mp there'
    have there := Array.getElem?_eq_getElem (drawn.size ▸ inside)
    obtain ⟨doc₁, there₁, formed, -⟩ := drawn.documents d _ there
    obtain rfl := Option.some.inj (there'.symm.trans there₁)
    exact formed
  · intro ref isHeld
    exact drawn.grows.inside (intact.inside ref (back.held isHeld))
  · intro o path view ref pieces alive observed
    have alive := back.observerAlive alive
    have observed := back.observed _ _ _ observed
    have isHeld : w.held ref = true :=
      held_iff.mpr (.inr (.inr ⟨o, path, _, alive, observed, rfl⟩))
    exact drawn.grows.isText isHeld (intact.texts o path view ref pieces alive observed)

end Drawn
end World
end ReactiveView
