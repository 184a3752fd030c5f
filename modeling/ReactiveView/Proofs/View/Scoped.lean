import ReactiveView.Proofs.Reaction.Idling
import ReactiveView.Proofs.Store.Arising
import ReactiveView.Proofs.View.Drawing
import ReactiveView.Proofs.View.Redrawing

/-! User code that keeps to one store. It reads and writes the data there, directly or through one
view, and calls nobody. Writing starts effects of the observers that are registered in the store,
and their code keeps to the store too, so whatever such code does, the documents are redrawn by
those effects. -/
namespace ReactiveView

variable {κ : Type}

/-- A scope on the same store that is tracked by nobody else. -/
def Scope.Within (reading scope : Scope) : Prop :=
  reading.store = scope.store ∧ (reading.tracker = none ∨ reading.tracker = scope.tracker)

/-- A call on the data of the store, directly or through the view, or on no data at all. -/
def Call.Scoped (scope : Scope) (v : ViewId) : Call κ → Prop
  | .read (.scope reading) _ => reading.Within scope
  | .write (.scope writing) _ _ => writing.store = scope.store
  | .read (.view u) _ | .write (.view u) _ _ => u = v
  | .formValue _ | .log _ => True
  | .invoke _ _ _ | .host _ => False

theorem Scope.within_untracked (scope : Scope) : Scope.Within { store := scope.store } scope :=
  ⟨rfl, .inl rfl⟩

def Program.Scoped {α : Type} (scope : Scope) (v : ViewId) : Program κ α → Prop
  | .done _ => True
  | .call c next => c.Scoped scope v ∧ ∀ answer, (next answer).Scoped scope v

structure Computed.Scoped (id : StoreId) (v : ViewId) (property : Computed κ) : Prop where
  getter : ∀ scope : Scope, scope.store = id → (property.getter scope).Scoped scope v
  setter : ∀ setter, property.setter = some setter → ∀ scope : Scope, scope.store = id →
    ∀ value, (setter scope value).Scoped scope v

/-- The effect of a binding of the view, or code that keeps to the store. -/
def Effect.Scoped (id : StoreId) (v : ViewId) : Effect κ → Prop
  | .formValue _ | .html _ | .text _ => True
  | .template view _ _ => view = v
  | .code run | .viewCode _ run => ∀ new old, (run new old).Scoped { store := id } v

theorem Program.Scoped.widen {α : Type} {reading scope : Scope} {v : ViewId} {p : Program κ α}
    (within : reading.Within scope) (bounded : p.Scoped reading v) : p.Scoped scope v := by
  induction p with
  | done r => trivial
  | call c next ih =>
    refine ⟨?_, fun answer => ih answer (bounded.2 answer)⟩
    have here := bounded.1
    cases c with
    | read source path =>
      cases source with
      | scope s =>
        obtain ⟨store, tracker⟩ := here
        refine ⟨store.trans within.1, ?_⟩
        obtain none | same := tracker
        · exact .inl none
        · exact same ▸ within.2
      | view u => exact here
    | write source path value =>
      cases source with
      | scope s => exact Eq.trans here within.1
      | view u => exact here
    | formValue ref => trivial
    | log value => trivial
    | invoke u method event => exact here
    | host command => exact here

namespace Store

variable {γ : Type} {code : γ → Prop} {listed : ObserverId → Prop} {s : Store γ}

/-- Computed properties and registered observers are of certain kinds. -/
structure Contains (code : γ → Prop) (listed : ObserverId → Prop) (s : Store γ) : Prop where
  sound : s.Sound
  computed : ∀ c property, s.content c = .computed property → code property
  registered : ∀ c, ∀ o ∈ (s.registry c).entries, listed o

theorem contains_ofValue (data : Value) : (ofValue data : Store γ).Contains code listed := by
  refine ⟨sound_ofValue data, fun c property found => (content_ofValue data c property found).elim,
    ?_⟩
  intro c o member
  rw [entries_ofValue] at member
  cases member

namespace Contains

theorem mono {code' : γ → Prop} {listed' : ObserverId → Prop} (contains : s.Contains code listed)
    (code_mono : ∀ property, code property → code' property)
    (listed_mono : ∀ o, listed o → listed' o) :
    s.Contains code' listed' where
  sound := contains.sound
  computed c property found := code_mono property (contains.computed c property found)
  registered c o member := listed_mono o (contains.registered c o member)

variable (contains : s.Contains code listed)
include contains

theorem setRegistry (c : CellId) {r : Registry} (each : ∀ o ∈ r.entries, listed o) :
    (s.setRegistry c r).Contains code listed where
  sound := contains.sound.setRegistry c r
  computed c' property found :=
    contains.computed c' property ((content_setRegistry s c c' r).symm.trans found)
  registered c' o member := by
    rw [registry_setRegistry] at member
    split at member
    · exact each o member
    · exact contains.registered c' o member

theorem depend (c : CellId) {o : ObserverId} (known : listed o) :
    (s.setRegistry c ((s.registry c).depend o).2).Contains code listed := by
  apply contains.setRegistry c
  intro p member
  obtain before | rfl := Registry.mem_entries_depend.mp member
  · exact contains.registered c p before
  · exact known

theorem prune (c : CellId) (alive : ObserverId → Bool) :
    (s.setRegistry c ((s.registry c).prune alive)).Contains code listed :=
  contains.setRegistry c fun o member => contains.registered c o (List.mem_filter.mp member).1

theorem setContent {c : CellId} {content : Content γ} (sound : (s.setContent c content).Sound)
    (allowed : ∀ property, content = .computed property → code property) :
    (s.setContent c content).Contains code listed := by
  refine ⟨sound, fun c' property found => ?_, fun c' o member => ?_⟩
  · by_cases here : c' = c
    · subst here
      by_cases inside : c' < s.cells.size
      · rw [content_setContent_self inside] at found
        exact allowed property found
      · simp [Store.content, contentOf, Store.setContent, Array.getElem?_modify,
          Array.getElem?_eq_none (Nat.le_of_not_lt inside)] at found
    · rw [content_setContent_of_ne here] at found
      exact contains.computed c' property found
  · rw [registry_setContent] at member
    exact contains.registered c' o member

theorem addMember {parent : CellId} {keys : List (String × CellId)} {key : String}
    {content : Content γ} (object : s.content parent = .object keys)
    (sound : (s.addMember parent key content).Sound)
    (allowed : ∀ property, content = .computed property → code property) :
    (s.addMember parent key content).Contains code listed := by
  refine ⟨sound, fun c property found => ?_, fun c o member => ?_⟩
  · rw [content_addMember object] at found
    split at found
    · cases found
    · split at found
      · exact allowed property found
      · exact contains.computed c property found
  · rw [registry_addMember object] at member
    exact contains.registered c o member

theorem write (parent : Handle) (key : String) (value : Value) :
    (s.write parent key value).2.Contains code listed := by
  have sound := contains.sound.write parent key value
  obtain same | ⟨c, v, -, changed⟩ | ⟨a, keys, object, -, added⟩ :=
    contains.sound.write_cases parent key value
  · rw [same]
    exact contains
  · rw [changed] at sound ⊢
    exact contains.setContent sound nofun
  · rw [added] at sound ⊢
    exact contains.addMember object sound nofun

/-- A computed property that is written is one of the store. -/
theorem computed_of_write {place : Handle} {key : String} {value : Value} {property : γ}
    (found : (s.write place key value).1 = .computed property) : code property := by
  have inLeaf : ∀ id pointer, (s.writeInLeaf id pointer key value).1 ≠ .computed property := by
    intro id pointer found
    unfold writeInLeaf at found
    repeat' split at found
    all_goals cases found
  unfold Store.write at found
  split at found
  · split at found
    · split at found
      · cases found
      · unfold writeCell at found
        split at found
        · rename_i content
          obtain rfl := Written.computed.inj found
          exact contains.computed _ _ content
        · split at found <;> cases found
        · cases found
    · exact (inLeaf _ _ found).elim
  · exact (inLeaf _ _ found).elim
  · cases found

theorem defineComputed (name : String) {property : γ} (allowed : code property) :
    (s.defineComputed name property).Contains code listed := by
  have sound := contains.sound.defineComputed name property
  have only : ∀ other, Content.computed property = .computed other → code other := by
    intro other same
    obtain rfl := Content.computed.inj same
    exact allowed
  obtain ⟨keys, root⟩ := contains.sound.root_object
  unfold Store.defineComputed at sound ⊢
  cases found : s.child? s.root name with
  | some c =>
    simp only [found] at sound
    exact contains.setContent sound only
  | none =>
    simp only [found] at sound
    exact contains.addMember root sound only

end Contains
end Store

namespace World

variable {w w' : World κ} {scope : Scope} {v : ViewId} {kind : Effect κ → Prop}

/-- The observer has an effect of the kind, if it is alive at all. -/
def Watched (kind : Effect κ → Prop) (w : World κ) (o : ObserverId) : Prop :=
  w.observerAlive o = true → ∃ path effect, w.Observed o path effect ∧ kind effect

/-- The view shows the store, the code in the store keeps to it, and living observers that are
registered in the store or about to be have effects of the kind. -/
structure Sealed (scope : Scope) (v : ViewId) (kind : Effect κ → Prop) (w : World κ) : Prop where
  intact : w.Intact
  shows : w.Shows scope.store v
  store : ∃ s, w.stores[scope.store]? = some s ∧
    s.Contains (Computed.Scoped scope.store v) (w.Watched kind)
  tracked : ∀ o, scope.tracker = some o → w.Watched kind o

theorem Redraws.watched (redraws : Redraws kind w w') {o : ObserverId}
    (watched : w.Watched kind o) :
    w'.Watched kind o := by
  intro alive
  obtain ⟨path, effect, observed, isKind⟩ := watched (redraws.observerAlive o ▸ alive)
  exact ⟨path, effect, (redraws.observed o path effect).mpr observed, isKind⟩

namespace Sealed

variable (isSealed : w.Sealed scope v kind)
include isSealed

/-- Redrawing documents breaks no seal, whatever the store has come to. -/
theorem redrawn (redraws : Redraws kind w w')
    (store : ∃ s, w'.stores[scope.store]? = some s ∧
      s.Contains (Computed.Scoped scope.store v) (w.Watched kind)) : w'.Sealed scope v kind := by
  refine ⟨redraws.keeps_intact isSealed.intact, ?_, ?_, fun o tracker =>
    redraws.watched (isSealed.tracked o tracker)⟩
  · obtain ⟨view, found, same⟩ := isSealed.shows
    exact ⟨view, redraws.views ▸ found, same⟩
  · obtain ⟨s, here, contains⟩ := store
    exact ⟨s, here, contains.mono (fun _ => id) fun _ => redraws.watched⟩

theorem still (redraws : Redraws kind w w') (stores : w'.stores = w.stores) :
    w'.Sealed scope v kind :=
  isSealed.redrawn redraws (stores ▸ isSealed.store)

/-- Only what is alive anyway is pinned, and nodes that have slots. -/
theorem pinning {pins : List Pin} (reached : ∀ pin ∈ pins, w.Reaches pin)
    (nodes : ∀ ref, .node ref ∈ pins → w.Inside ref) :
    ({ w with pins := pins ++ w.pins } : World κ).Sealed scope v kind := by
  have watched : ∀ o, w.Watched kind o →
      ({ w with pins := pins ++ w.pins } : World κ).Watched kind o := by
    intro o watched alive
    exact watched (observerAlive_pinning reached o ▸ alive)
  obtain ⟨s, here, contains⟩ := isSealed.store
  exact ⟨isSealed.intact.pinning reached nodes, isSealed.shows,
    ⟨s, here, contains.mono (fun _ => id) watched⟩, fun o tracker =>
      watched o (isSealed.tracked o tracker)⟩

/-- The pins come off again. -/
theorem unpinning {pins more : List Pin} (pinned : w.pins = more ++ pins) :
    ({ w with pins } : World κ).Sealed scope v kind := by
  have fewer : HoldsOn { w with pins } w :=
    .of_pins rfl (fun _ member => pinned ▸ List.mem_append_right _ member) rfl
      fun _ _ _ observed => observed
  have watched : ∀ o, w.Watched kind o → ({ w with pins } : World κ).Watched kind o :=
    fun o watched alive => watched (fewer.observerAlive alive)
  obtain ⟨s, here, contains⟩ := isSealed.store
  exact ⟨isSealed.intact.fewer fewer rfl, isSealed.shows,
    ⟨s, here, contains.mono (fun _ => id) watched⟩, fun o tracker =>
      watched o (isSealed.tracked o tracker)⟩

/-- The store is replaced by one that contains no more. -/
theorem withStore {s : Store (Computed κ)}
    (contains : s.Contains (Computed.Scoped scope.store v) (w.Watched kind)) :
    (w.withStore scope.store s).Sealed scope v kind ∧
      Redraws kind w (w.withStore scope.store s) := by
  obtain ⟨_, here, -⟩ := isSealed.store
  have redraws : Redraws kind w (w.withStore scope.store s) :=
    .of_same rfl rfl rfl rfl (fun _ _ _ => .rfl) rfl
  exact ⟨isSealed.redrawn redraws ⟨s, World.stores_withStore here s, contains⟩, redraws⟩

end Sealed

/-- From a sealed world to a sealed world, by redrawing documents only. -/
def Stirs (scope : Scope) (v : ViewId) (kind : Effect κ → Prop) (w w' : World κ) : Prop :=
  w.Sealed scope v kind → w'.Sealed scope v kind ∧ Redraws kind w w'

theorem composes_stirs : Run.Composes (Stirs (κ := κ) scope v kind) where
  refl w isSealed := ⟨isSealed, .refl w⟩
  trans first second isSealed := by
    obtain ⟨between, redraws⟩ := first isSealed
    obtain ⟨after, redraws'⟩ := second between
    exact ⟨after, redraws.trans redraws'⟩

end World

open World Run

variable {scope : Scope} {v : ViewId} {kind : Effect κ → Prop} {α : Type}

theorem stirs_pure (a : α) : Keeps (κ := κ) (Stirs scope v kind) (Pure.pure a) :=
  Keeps.pure composes_stirs a

theorem stirs_ofExcept (r : Except BindingError α) :
    Keeps (κ := κ) (Stirs scope v kind) (Run.ofExcept r) :=
  Keeps.ofExcept composes_stirs r

theorem stirs_bind {β : Type} {x : Run κ α} {f : α → Run κ β} (first : Keeps (Stirs scope v kind) x)
    (then_ : ∀ a, Keeps (Stirs scope v kind) (f a)) : Keeps (Stirs scope v kind) (x >>= f) :=
  Keeps.bind composes_stirs first then_

/-- What is found in the store is code that keeps to it. -/
theorem stirs_store {f : Store (Computed κ) → Run κ α}
    (each : ∀ s, (∀ c property, s.content c = .computed property → property.Scoped scope.store v) →
      Keeps (Stirs scope v kind) (f s)) :
    Keeps (Stirs scope v kind) (Run.store scope.store >>= f) := by
  intro w r w' ran isSealed
  obtain ⟨s, here, contains⟩ := isSealed.store
  rw [bind_of_ok (store_run here)] at ran
  exact each s contains.computed w r w' ran isSealed

/-- A change of the store that brings nothing new into it. -/
theorem stirs_setStore {change : Store (Computed κ) → Store (Computed κ)}
    (fewer : ∀ (w : World κ) s, w.Sealed scope v kind →
      s.Contains (Computed.Scoped scope.store v) (w.Watched kind) →
      (change s).Contains (Computed.Scoped scope.store v) (w.Watched kind)) :
    Keeps (Stirs scope v kind) (do
      let s ← Run.store scope.store
      Run.setStore scope.store (change s) : Run κ Unit) := by
  intro w r w' ran isSealed
  obtain ⟨s, here, contains⟩ := isSealed.store
  rw [bind_of_ok (store_run here)] at ran
  obtain ⟨-, rfl⟩ := Prod.mk.inj (Option.some.inj ran)
  exact isSealed.withStore (fewer w s isSealed contains)

/-- What has been reached is pinned meanwhile. -/
theorem stirs_pinning {w w' : World κ} {pins : List Pin} {x : Run κ α} {r : Except BindingError α}
    (isSealed : w.Sealed scope v kind) (reached : ∀ pin ∈ pins, w.Reaches pin)
    (nodes : ∀ ref, .node ref ∈ pins → w.Inside ref)
    (inner : ∀ r w', x { w with pins := pins ++ w.pins } = some (r, w') →
      Stirs scope v kind { w with pins := pins ++ w.pins } w')
    (ran : Run.pinning pins x w = some (r, w')) : w'.Sealed scope v kind ∧ Redraws kind w w' := by
  obtain ⟨after, answer, rfl⟩ := pinning_eq_some ran
  obtain ⟨ended, redraws⟩ := inner _ _ answer (isSealed.pinning reached nodes)
  exact ⟨ended.unpinning redraws.pins, redraws.unpin⟩

theorem stirs_whileAlive {w w' : World κ} {u : ViewId} {x : Run κ Unit}
    {r : Except BindingError Unit} (isSealed : w.Sealed scope v kind)
    (inner : ∀ r w', x { w with pins := [.view u] ++ w.pins } = some (r, w') →
      Stirs scope v kind { w with pins := [.view u] ++ w.pins } w')
    (ran : Run.whileAlive u x w = some (r, w')) : w'.Sealed scope v kind ∧ Redraws kind w w' := by
  unfold Run.whileAlive at ran
  rw [bind_of_ok (show Run.world w = some (.ok w, w) from rfl)] at ran
  split at ran
  · rename_i alive
    refine stirs_pinning isSealed (fun pin member => ?_) (fun ref member => ?_) inner ran
    · obtain rfl := List.mem_singleton.mp member
      exact alive
    · cases List.mem_singleton.mp member
  · exact stirs_pure () _ _ _ ran isSealed

section

variable {perform : Performer κ} (effects : ∀ effect, kind effect → effect.Scoped scope.store v)
variable (calls : ∀ c : Call κ, c.Scoped scope v → Keeps (Stirs scope v kind) (perform c))

section Reading

include calls

theorem stirs_program {p : Program κ α} (bounded : p.Scoped scope v) :
    Keeps (Stirs scope v kind) (p.run perform) := by
  induction p with
  | done r => exact stirs_ofExcept r
  | call c next ih =>
    intro w r w' ran
    simp only [Program.run] at ran
    cases first : perform c w with
    | none => simp [first] at ran
    | some answer =>
      simp only [first] at ran
      exact composes_stirs.trans (calls c bounded.1 _ _ _ first)
        (ih answer.1 (bounded.2 _) _ _ _ ran)

namespace Scope

variable {reading : Scope} (within : reading.Within scope)
include within

omit calls in
theorem stirs_register (c : CellId) : Keeps (κ := κ) (Stirs scope v kind) (reading.register c) := by
  obtain ⟨store, tracker⟩ := within
  unfold register
  cases tracked : reading.tracker with
  | none => exact stirs_pure _
  | some o =>
    have known : scope.tracker = some o := by
      rw [tracked] at tracker
      exact (tracker.resolve_left nofun).symm
    rw [store]
    exact stirs_setStore fun w s isSealed contains => contains.depend c (isSealed.tracked o known)

theorem stirs_property? (place : Handle) (key : String) :
    Keeps (Stirs scope v kind) (reading.property? perform place key) := by
  have store := within.1
  unfold property?
  rw [store]
  apply stirs_store
  intro s code
  cases found : s.find place key with
  | missing => exact stirs_pure _
  | inside _ => exact stirs_pure _
  | cell c =>
    exact stirs_bind (stirs_register within c) fun _ => stirs_store fun _ _ => stirs_pure _
  | computed c property =>
    have bounded := (code c property (Store.computed_of_find found).1).getter reading store
    exact stirs_bind (stirs_register within c) fun _ =>
      stirs_bind (stirs_program calls (bounded.widen within)) fun _ => stirs_pure _

theorem stirs_walk (path : String) (keys : List String) (place : Handle) :
    Keeps (Stirs scope v kind) (reading.walk perform path keys place) := by
  induction keys generalizing place with
  | nil => exact stirs_pure _
  | cons key rest ih =>
    apply stirs_bind (stirs_property? calls within place key)
    intro next
    cases next with
    | none => exact stirs_ofExcept _
    | some next => exact ih next

theorem stirs_parentOf (path : String) :
    Keeps (Stirs scope v kind) (reading.parentOf perform path) := by
  apply stirs_bind (stirs_ofExcept _)
  intro keys
  rw [within.1]
  exact stirs_store fun s _ => stirs_bind (stirs_walk calls within path _ _) fun _ => stirs_pure _

theorem stirs_resolve (path : String) :
    Keeps (Stirs scope v kind) (reading.resolve perform path) := by
  have store := within.1
  apply stirs_bind (stirs_parentOf calls within path)
  intro way
  apply stirs_bind (stirs_property? calls within way.1 way.2)
  intro found
  rw [store]
  cases found with
  | some place => exact stirs_store fun _ _ => stirs_pure _
  | none =>
    apply stirs_store
    intro s _
    split
    · exact stirs_ofExcept _
    · exact stirs_pure _

end Scope

theorem stirs_renderFrom (template : List Piece) :
    Keeps (Stirs scope v kind) (renderFrom perform scope.store template) := by
  refine stirs_bind (Keeps.mapM composes_stirs fun piece _ => ?_) fun _ => stirs_pure _
  cases piece with
  | literal c => exact stirs_pure _
  | slot path =>
    exact stirs_bind (Scope.stirs_resolve calls scope.within_untracked path) fun _ => stirs_pure _

omit calls in
/-- The view is looked up with the store that it shows. -/
theorem stirs_view {f : View κ → Run κ α}
    (each : ∀ view : View κ, view.store = scope.store → Keeps (Stirs scope v kind) (f view)) :
    Keeps (Stirs scope v kind) (Run.view v >>= f) := by
  intro w r w' ran isSealed
  obtain ⟨view, found, same⟩ := isSealed.shows
  rw [bind_of_ok (view_run found)] at ran
  exact each view same w r w' ran isSealed

end Reading

section Firing

variable {w w' : World κ} {o : ObserverId} {r : Except BindingError Unit}

/-- One document is redrawn. -/
theorem World.Redraws.edit {d : DocumentId} {f : Document (Listener κ) → Document (Listener κ)}
    (each : ∀ doc, w.documents[d]? = some doc →
      Redrawn kind d (fun n => w.held ⟨d, n⟩ = true) doc (f doc)) :
    Redraws kind w { w with documents := w.documents.modify d f } := by
  refine ⟨rfl, rfl, rfl, rfl, fun _ _ _ => .rfl, Array.size_modify, fun other doc there => ?_⟩
  rw [Array.getElem?_modify]
  by_cases here : d = other
  · subst here
    refine ⟨f doc, ?_, each doc there⟩
    rw [if_pos rfl, there, Option.map_some]
  · rw [if_neg here]
    exact ⟨doc, there, .refl⟩

/-- Something is drawn in a document of a sealed world. -/
theorem stirs_edit {d : DocumentId}
    {f : (NodeId → Bool) → Document (Listener κ) → Document (Listener κ)}
    (isSealed : w.Sealed scope v kind) (ran : Run.edit d f w = some (r, w'))
    (draws : ∀ doc, w.documents[d]? = some doc →
      Draws kind d (fun n => w.held ⟨d, n⟩ = true) doc (f (fun n => w.held ⟨d, n⟩) doc)) :
    w'.Sealed scope v kind ∧ Redraws kind w w' := by
  obtain ⟨-, rfl⟩ := Prod.mk.inj (Option.some.inj ran)
  have redraws : Redraws kind w { w with
      documents := w.documents.modify d (f fun n => w.held ⟨d, n⟩) } :=
    .edit fun doc there => .single (draws doc there)
  exact ⟨isSealed.still redraws rfl, redraws⟩

include effects calls

/-- The effect of a living observer stays within what effects of the kind may do. -/
theorem stirs_fire {path : String} {effect : Effect κ} (isSealed : w.Sealed scope v kind)
    (alive : w.observerAlive o = true) (observed : w.Observed o path effect) (isKind : kind effect)
    {new old : Value} (ran : effect.fire perform new old w = some (r, w')) :
    w'.Sealed scope v kind ∧ Redraws kind w w' := by
  have bounded := effects effect isKind
  have isHeld : ∀ ref, effect.target? = some ref → w.held ref = true := fun ref target =>
    held_iff.mpr (.inr (.inr ⟨o, path, effect, alive, observed, target⟩))
  have inside : ∀ {w₁ : World κ} ref doc, w₁.Sealed scope v kind → Redraws kind w w₁ →
      effect.target? = some ref → w₁.documents[ref.document]? = some doc → ref.node < doc.size := by
    intro w₁ ref doc isSealed₁ redraws target there
    obtain ⟨doc', there', inside⟩ :=
      isSealed₁.intact.inside ref (redraws.holdsOn.held (isHeld ref target))
    obtain rfl := Option.some.inj (there.symm.trans there')
    exact inside
  cases effect with
  | formValue ref =>
    have written : Run.setValue ref new.propertyText w = some (r, w') := ran
    exact stirs_edit isSealed written fun doc there =>
      .formValue _ isKind (inside ref doc isSealed (.refl w) rfl there)
  | html ref =>
    have written : Run.setHtml ref new.propertyText w = some (r, w') := ran
    exact stirs_edit isSealed written fun doc there =>
      .html _ isKind (inside ref doc isSealed (.refl w) rfl there) fun _ => id
  | text ref =>
    have written : Run.setText ref new.propertyText w = some (r, w') := ran
    exact stirs_edit isSealed written fun doc there =>
      .text _ isKind (inside ref doc isSealed (.refl w) rfl there) fun _ => id
  | template u ref pieces =>
    obtain rfl : u = v := bounded
    refine stirs_whileAlive isSealed (fun r w₂ ran isSealed₁ => ?_) ran
    have watched : HoldsOn w { w with pins := [.view u] ++ w.pins } :=
      .of_pins rfl (fun _ member => List.mem_append_right _ member) rfl fun _ _ _ observed =>
        observed
    have shown : Keeps (Stirs scope u kind) (do
        renderFrom perform (← Run.view u).store pieces : Run κ String) :=
      stirs_view fun view same => same ▸ stirs_renderFrom calls pieces
    rw [← bind_assoc] at ran
    obtain ⟨e, failed, -⟩ | ⟨text, w₁, rendered, ran⟩ := bind_eq_some ran
    · exact shown _ _ _ failed isSealed₁
    obtain ⟨isSealed₂, redraws⟩ := shown _ _ _ rendered isSealed₁
    have alive₂ := redraws.holdsOn.observerAlive (watched.observerAlive alive)
    have observed₂ := (redraws.observed o path _).mpr observed
    obtain ⟨doc', there', isText⟩ := isSealed₂.intact.texts o path u ref pieces alive₂ observed₂
    refine (stirs_edit isSealed₂ ran fun doc there => ?_).imp_right redraws.trans
    obtain rfl := Option.some.inj (there'.symm.trans there)
    rw [Document.setTextContent_of_text isText]
    exact .template text isKind isText
  | code run =>
    exact stirs_program calls ((bounded new old).widen scope.within_untracked) _ _ _ ran isSealed
  | viewCode u run =>
    refine stirs_whileAlive isSealed (fun r w' => ?_) ran
    exact stirs_program calls ((bounded new old).widen scope.within_untracked) _ r w'

/-- A living observer is told. -/
theorem stirs_updateObserver (isSealed : w.Sealed scope v kind) (alive : w.observerAlive o = true)
    (watched : w.Watched kind o) (ran : updateObserver perform scope.store o w = some (r, w')) :
    w'.Sealed scope v kind ∧ Redraws kind w w' := by
  obtain ⟨path, effect, observed, isKind⟩ := watched alive
  obtain ⟨first, looked, -⟩ := observer_run o w
  unfold updateObserver at ran
  rw [bind_of_ok looked] at ran
  have read :
      Keeps (Stirs scope v kind) (Scope.resolve perform { store := scope.store } first.path) :=
    Scope.stirs_resolve calls scope.within_untracked first.path
  obtain ⟨e, failed, -⟩ | ⟨new, w₁, answered, ran⟩ := bind_eq_some ran
  · exact read _ _ _ failed isSealed
  obtain ⟨isSealed₁, redraws⟩ := read _ _ _ answered isSealed
  obtain ⟨observer, looked, known⟩ := observer_run o w₁
  rw [bind_of_ok looked] at ran
  split at ran
  · obtain ⟨-, rfl⟩ := Prod.mk.inj (Option.some.inj ran)
    exact ⟨isSealed₁, redraws⟩
  · obtain ⟨value, found⟩ := (redraws.observed o path effect).mpr observed
    obtain rfl := known _ found
    have kept : Redraws kind w₁ { w₁ with
        observers := w₁.observers.modify o fun observer => { observer with value := new }
        journal := ⟨o, new, value⟩ :: w₁.journal } :=
      .of_same rfl rfl rfl Array.size_modify (fun _ _ _ => Drawn.observed_modify w₁ o new _) rfl
    have isSealed₂ := isSealed₁.still kept rfl
    have redraws₂ := redraws.trans kept
    obtain ⟨ended, fired⟩ := stirs_fire effects calls isSealed₂
      (redraws₂.holdsOn.observerAlive alive)
        ((redraws₂.observed o path effect).mpr observed) isKind ran
    exact ⟨ended, redraws₂.trans fired⟩

theorem stirs_updateAll {told : List ObserverId} (isSealed : w.Sealed scope v kind)
    (each : ∀ o ∈ told, w.observerAlive o = true ∧ w.Watched kind o)
    (ran : told.forM (updateObserver perform scope.store) w = some (r, w')) :
    w'.Sealed scope v kind ∧ Redraws kind w w' := by
  induction told generalizing w with
  | nil => exact stirs_pure () _ _ _ ran isSealed
  | cons o rest ih =>
    obtain ⟨alive, watched⟩ := each o List.mem_cons_self
    obtain ⟨e, failed, -⟩ | ⟨_, w₁, done, ran⟩ := bind_eq_some ran
    · exact stirs_updateObserver effects calls isSealed alive watched failed
    · obtain ⟨isSealed₁, redraws⟩ := stirs_updateObserver effects calls isSealed alive watched done
      have later : ∀ p ∈ rest, w₁.observerAlive p = true ∧ w₁.Watched kind p := by
        intro p member
        obtain ⟨alive, watched⟩ := each p (List.mem_cons_of_mem _ member)
        exact ⟨redraws.holdsOn.observerAlive alive, redraws.watched watched⟩
      obtain ⟨ended, further⟩ := ih isSealed₁ later ran
      exact ⟨ended, redraws.trans further⟩

/-- All that are told are alive, because the dead are taken off the cell first. -/
theorem stirs_tell (c : CellId) : Keeps (Stirs scope v kind) (do
    notify perform scope.store (← subscribers scope.store c) : Run κ Unit) := by
  intro w r w' ran isSealed
  obtain ⟨s, here, contains⟩ := isSealed.store
  have listed :
      subscribers scope.store c w = some (.ok ((s.registry c).prune w.observerAlive).entries,
      w.withStore scope.store (s.setRegistry c ((s.registry c).prune w.observerAlive))) := by
    unfold subscribers
    rw [bind_of_ok (show Run.world w = some (.ok w, w) from rfl), bind_of_ok (store_run here)]
    rfl
  rw [bind_of_ok listed] at ran
  obtain ⟨isSealed₁, redraws⟩ := isSealed.withStore (contains.prune c w.observerAlive)
  have each : ∀ o ∈ ((s.registry c).prune w.observerAlive).entries,
      w.observerAlive o = true ∧ w.Watched kind o := by
    intro o member
    obtain ⟨registered, alive⟩ := List.mem_filter.mp member
    exact ⟨alive, contains.registered c o registered⟩
  refine (stirs_pinning isSealed₁ (fun pin member => ?_) (fun ref member => ?_)
    (fun r w₂ ran isSealed₂ => stirs_updateAll effects calls isSealed₂ (fun o member => ?_) ran)
    ran).imp_right redraws.trans
  · obtain ⟨o, listed, rfl⟩ := List.mem_map.mp member
    exact (each o listed).1
  · obtain ⟨o, -, wrong⟩ := List.mem_map.mp member
    cases wrong
  · obtain ⟨alive, watched⟩ := each o member
    refine ⟨observerAlive_iff.mpr (.inl ?_), fun _ => watched alive⟩
    simp only [World.roots, Bool.or_eq_true, List.contains_iff_mem, List.mem_append, List.mem_map]
    exact .inr (.inl ⟨o, member, rfl⟩)

namespace Scope

variable {writing : Scope}

theorem stirs_set (store : writing.store = scope.store) (place : Handle) (key : String)
    (value : Value) : Keeps (Stirs scope v kind) (writing.set perform place key value) := by
  unfold Scope.set
  rw [store]
  intro w r w' ran isSealed
  obtain ⟨s, here, contains⟩ := isSealed.store
  rw [bind_of_ok (store_run here)] at ran
  have written := contains.write place key value
  have code : ∀ property, (s.write place key value).1 = .computed property →
      property.Scoped scope.store v := fun _ => contains.computed_of_write
  cases both : s.write place key value with
  | mk outcome t =>
    simp only [both] at written code ran
    obtain ⟨isSealed₁, redraws⟩ := isSealed.withStore written
    rw [bind_of_ok (show Run.setStore scope.store t w =
      some (.ok (), w.withStore scope.store t) from rfl)]
      at ran
    suffices further : Stirs scope v kind (w.withStore scope.store t) w' from
      (further isSealed₁).imp_right redraws.trans
    cases outcome with
    | done outcome => exact stirs_pure _ _ _ _ ran
    | computed property =>
      cases setter : property.setter with
      | none =>
        simp only [setter] at ran
        exact stirs_pure _ _ _ _ ran
      | some set =>
        simp only [setter] at ran
        have bounded := (code property rfl).setter set setter { store := scope.store } rfl value
        exact stirs_bind (stirs_program calls (bounded.widen scope.within_untracked))
          (fun _ => stirs_pure _) _ _ _ ran
    | cell c =>
      have changed : Keeps (Stirs scope v kind) (Pure.pure Outcome.changed : Run κ Outcome) :=
        stirs_pure Outcome.changed
      have told := stirs_bind (stirs_tell effects calls c) fun _ => changed
      rw [bind_assoc] at told
      exact told _ _ _ ran

theorem stirs_assign (store : writing.store = scope.store) (path : String) (value : Value) :
    Keeps (Stirs scope v kind) (writing.assign perform path value) := by
  have within : Scope.Within { store := writing.store } scope := ⟨store, .inl rfl⟩
  refine stirs_bind (stirs_parentOf calls within path) fun way =>
    stirs_bind (stirs_set effects calls store way.1 way.2 value) fun outcome => ?_
  cases outcome <;> exact stirs_ofExcept _

end Scope
end Firing
end

section Performing

variable {host : Nat → Performer κ → κ → Run κ Unit}
variable (effects : ∀ effect, kind effect → effect.Scoped scope.store v)
include effects

/-- Code that keeps to the store leaves a sealed world sealed, and only redraws documents. -/
theorem stirs_performer (levels : Nat) {c : Call κ} (bounded : c.Scoped scope v) :
    Keeps (Stirs scope v kind) (performer host levels c) := by
  induction levels generalizing c with
  | zero => exact Keeps.exhausted
  | succ levels ih =>
    have calls : ∀ c : Call κ, c.Scoped scope v →
        Keeps (Stirs scope v kind) (performer host levels c) :=
      fun _ => ih
    cases c with
    | read source path =>
      cases source with
      | scope reading => exact Scope.stirs_resolve calls bounded path
      | view u =>
        obtain rfl : u = v := bounded
        exact stirs_view fun view same => Scope.stirs_resolve calls ⟨same, .inl rfl⟩ path
    | write source path value =>
      cases source with
      | scope writing =>
        exact stirs_bind (Scope.stirs_assign effects calls bounded path value) fun _ => stirs_pure _
      | view u =>
        obtain rfl : u = v := bounded
        exact stirs_bind (stirs_view fun view same =>
          Scope.stirs_assign effects calls same path value)
          fun _ => stirs_pure _
    | formValue ref =>
      exact stirs_bind (Keeps.bind composes_stirs (Keeps.inspect composes_stirs _) fun _ =>
        stirs_pure _) fun _ => stirs_pure _
    | log value =>
      refine stirs_bind (Keeps.modify fun w isSealed => ?_) fun _ => stirs_pure _
      have same : Redraws kind w { w with log := value :: w.log } :=
        .of_same rfl rfl rfl rfl (fun _ _ _ => .rfl) rfl
      exact ⟨isSealed.still same rfl, same⟩
    | invoke u method event => cases bounded
    | host command => cases bounded

end Performing
end ReactiveView
