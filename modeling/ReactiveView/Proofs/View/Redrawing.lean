import ReactiveView.Proofs.Document.Region
import ReactiveView.Proofs.View.Effects
import ReactiveView.Proofs.View.Intact
import Mathlib.Logic.Relation

/-! What effects draw. Redrawing a document is writing to the nodes of effects of a certain kind, in
any order and as often as one likes. A node that is held keeps its kind and gets nothing new above
it, and it keeps its children if no effect of the kind writes to it. -/
namespace ReactiveView

namespace Document

variable {ℓ : Type} {doc doc' doc'' : Document ℓ} {held opened : NodeId → Prop}

/-- Held nodes keep their kinds and get nothing new above them, and those that are not opened keep
their children. -/
structure Settles (held opened : NodeId → Prop) (doc doc' : Document ℓ) : Prop where
  formed : doc'.WellFormed
  grown : doc.size ≤ doc'.size
  kind : ∀ n, held n → (doc'.node n).kind = (doc.node n).kind
  children : ∀ n, held n → ¬ opened n → (doc'.node n).children = (doc.node n).children
  above : ∀ a n, held n → Above doc' a n → Above doc a n

namespace Settles

theorem refl (formed : doc.WellFormed) : Settles held opened doc doc :=
  ⟨formed, Nat.le_refl _, fun _ _ => rfl, fun _ _ _ => rfl, fun _ _ _ above => above⟩

theorem trans (first : Settles held opened doc doc') (second : Settles held opened doc' doc'') :
    Settles held opened doc doc'' where
  formed := second.formed
  grown := Nat.le_trans first.grown second.grown
  kind n isHeld := (second.kind n isHeld).trans (first.kind n isHeld)
  children n isHeld closed :=
    (second.children n isHeld closed).trans (first.children n isHeld closed)
  above a n isHeld above := first.above a n isHeld (second.above a n isHeld above)

/-- It is no more to settle what less is held of and more is opened of. -/
theorem mono {held' opened' : NodeId → Prop} (settles : Settles held opened doc doc')
    (fewer : ∀ n, held' n → held n) (more : ∀ n, opened n → opened' n) :
    Settles held' opened' doc doc' where
  formed := settles.formed
  grown := settles.grown
  kind n isHeld := settles.kind n (fewer n isHeld)
  children n isHeld closed := settles.children n (fewer n isHeld) (mt (more n) closed)
  above a n isHeld := settles.above a n (fewer n isHeld)

end Settles

theorem SameForest.settles (same : SameForest doc doc') (formed : doc.WellFormed) :
    Settles held opened doc doc' where
  formed := formed.sameForest same
  grown := Nat.le_of_eq same.size.symm
  kind n _ := same.kind n
  children n _ _ := same.children n
  above _ _ _ above := above.congr fun m _ => (same.parent m).symm

/-- The children of a node come and go. -/
theorem Renewed.settles {holds : NodeId → Bool} (renewed : Renewed holds opened doc doc')
    (formed' : doc'.WellFormed) (guarded : ∀ n, held n → holds n = true ∧ n < doc.size) :
    Settles held opened doc doc' := by
  obtain ⟨fresh, renews⟩ := renewed
  have old : ∀ n, held n → ¬ fresh n := fun n isHeld =>
    renews.old_of_held (guarded n isHeld).1 (guarded n isHeld).2
  refine ⟨formed', renews.grown, fun n isHeld => ?_,
    fun n isHeld => renews.children n (old n isHeld),
    fun a n isHeld => renews.above_before (old n isHeld)⟩
  exact (Node.shape_inj (renews.shape n (old n isHeld))).1

theorem inside_of_text {id : NodeId} (isText : (doc.node id).kind = .text) : id < doc.size := by
  by_contra outside
  rw [node_of_outside (Nat.le_of_not_lt outside)] at isText
  cases isText

theorem setTextContent_of_text {id : NodeId} (isText : (doc.node id).kind = .text)
    (holds : NodeId → Bool) (text : String) :
    doc.setTextContent holds id text = doc.setData id text := by
  have isData : (doc.node id).isCharacterData = true := by simp [Node.isCharacterData, isText]
  rw [setTextContent, if_pos isData]

end Document

open Document

variable {κ : Type} {kind : Effect κ → Prop} {d : DocumentId} {held : NodeId → Prop}
  {doc doc' : Document (Listener κ)}

/-- One effect of the kind writes to its node, while certain nodes are held. -/
inductive Draws (kind : Effect κ → Prop) (d : DocumentId) (held : NodeId → Prop)
    (doc : Document (Listener κ)) : Document (Listener κ) → Prop
  | formValue {n : NodeId} (value : String) : kind (.formValue ⟨d, n⟩) → n < doc.size →
      Draws kind d held doc (doc.setValue n value)
  | html {n : NodeId} {holds : NodeId → Bool} (markup : String) :
      kind (.html ⟨d, n⟩) → n < doc.size →
      (∀ m, held m → holds m = true) → Draws kind d held doc (doc.setInnerHtml holds n markup)
  | text {n : NodeId} {holds : NodeId → Bool} (text : String) : kind (.text ⟨d, n⟩) → n < doc.size →
      (∀ m, held m → holds m = true) → Draws kind d held doc (doc.setTextContent holds n text)
  | template {v : ViewId} {n : NodeId} {pieces : List Piece} (text : String) :
      kind (.template v ⟨d, n⟩ pieces) → (doc.node n).kind = .text →
      Draws kind d held doc (doc.setData n text)

/-- The node is written to by an effect of the kind. -/
def Targeted (kind : Effect κ → Prop) (d : DocumentId) (n : NodeId) : Prop :=
  ∃ effect, kind effect ∧ effect.target? = some ⟨d, n⟩

theorem Draws.mono {kind' : Effect κ → Prop} {held' : NodeId → Prop}
    (draws : Draws kind d held doc doc') (more : ∀ effect, kind effect → kind' effect)
    (fewer : ∀ n, held' n → held n) : Draws kind' d held' doc doc' := by
  cases draws with
  | formValue value isKind inside => exact .formValue value (more _ isKind) inside
  | html markup isKind inside holds =>
    exact .html markup (more _ isKind) inside fun m isHeld => holds m (fewer m isHeld)
  | text text isKind inside holds =>
    exact .text text (more _ isKind) inside fun m isHeld => holds m (fewer m isHeld)
  | template text isKind isText => exact .template text (more _ isKind) isText

theorem Draws.settles (formed : doc.WellFormed) (inside : ∀ n, held n → n < doc.size)
    (draws : Draws kind d held doc doc') : Settles held (Targeted kind d) doc doc' := by
  cases draws with
  | formValue value isKind here => exact (setValue_spec here value).1.settles formed
  | @html n _ markup isKind here holds =>
    refine ((renewed_setInnerHtml formed here markup).settles (formed.setInnerHtml _ here markup)
      fun m isHeld => ⟨holds m isHeld, inside m isHeld⟩).mono (fun _ => id) ?_
    rintro _ rfl
    exact ⟨_, isKind, rfl⟩
  | @text n _ text isKind here holds =>
    by_cases isData : (doc.node n).isCharacterData = true
    · rw [setTextContent, if_pos isData]
      exact (setData_spec here text).1.settles formed
    · refine ((renewed_setTextContent formed here (Bool.eq_false_iff.mpr isData) text).settles
        (formed.setTextContent _ here text)
        fun m isHeld => ⟨holds m isHeld, inside m isHeld⟩).mono (fun _ => id) ?_
      rintro _ rfl
      exact ⟨_, isKind, rfl⟩
  | @template _ n _ text isKind isText =>
    exact (setData_spec (inside_of_text isText) text).1.settles formed

/-- Effects of the kind write one after the other. -/
abbrev Redrawn (kind : Effect κ → Prop) (d : DocumentId) (held : NodeId → Prop) :
    Document (Listener κ) → Document (Listener κ) → Prop :=
  Relation.ReflTransGen (Draws kind d held)

theorem Redrawn.mono {kind' : Effect κ → Prop} {held' : NodeId → Prop}
    (redrawn : Redrawn kind d held doc doc') (more : ∀ effect, kind effect → kind' effect)
    (fewer : ∀ n, held' n → held n) : Redrawn kind' d held' doc doc' := by
  induction redrawn with
  | refl => exact .refl
  | tail _ draws ih => exact ih.tail (draws.mono more fewer)

theorem Redrawn.settles (formed : doc.WellFormed) (inside : ∀ n, held n → n < doc.size)
    (redrawn : Redrawn kind d held doc doc') : Settles held (Targeted kind d) doc doc' := by
  induction redrawn with
  | refl => exact .refl formed
  | tail _ draws ih =>
    exact ih.trans (draws.settles ih.formed fun n isHeld =>
      Nat.lt_of_lt_of_le (inside n isHeld) ih.grown)

namespace World

variable {w w' w'' : World κ} {o : ObserverId}

/-- The documents of a world are redrawn, and what refers to what is as it was. -/
structure Redraws (kind : Effect κ → Prop) (w w' : World κ) : Prop where
  names : w'.names = w.names
  pins : w'.pins = w.pins
  views : w'.views = w.views
  observers : w'.observers.size = w.observers.size
  observed : ∀ o path effect, w'.Observed o path effect ↔ w.Observed o path effect
  size : w'.documents.size = w.documents.size
  documents : ∀ (d : DocumentId) doc, w.documents[d]? = some doc →
    ∃ doc', w'.documents[d]? = some doc' ∧
    Redrawn kind d (fun n => w.held ⟨d, n⟩ = true) doc doc'

namespace Redraws

theorem refl (w : World κ) : Redraws kind w w :=
  ⟨rfl, rfl, rfl, rfl, fun _ _ _ => .rfl, rfl, fun _ doc there => ⟨doc, there, .refl⟩⟩

theorem holdsOn (redraws : Redraws kind w w') : HoldsOn w w' :=
  .of_pins redraws.names (fun _ pinned => redraws.pins ▸ pinned) redraws.views
    fun _ _ _ => (redraws.observed _ _ _).mpr

theorem back (redraws : Redraws kind w w') : HoldsOn w' w :=
  .of_pins redraws.names.symm (fun _ pinned => redraws.pins ▸ pinned) redraws.views.symm
    fun _ _ _ => (redraws.observed _ _ _).mp

theorem observerAlive (redraws : Redraws kind w w') (o : ObserverId) :
    w'.observerAlive o = w.observerAlive o :=
  Bool.eq_iff_iff.mpr ⟨redraws.back.observerAlive, redraws.holdsOn.observerAlive⟩

theorem trans (first : Redraws kind w w') (second : Redraws kind w' w'') : Redraws kind w w'' where
  names := second.names.trans first.names
  pins := second.pins.trans first.pins
  views := second.views.trans first.views
  observers := second.observers.trans first.observers
  observed o path effect := (second.observed o path effect).trans (first.observed o path effect)
  size := second.size.trans first.size
  documents d doc there := by
    obtain ⟨doc', there', redrawn⟩ := first.documents d doc there
    obtain ⟨doc'', there'', redrawn'⟩ := second.documents d doc' there'
    exact ⟨doc'', there'', redrawn.trans (redrawn'.mono (fun _ => id) fun _ => first.holdsOn.held)⟩

/-- Nothing of what counts is changed. -/
theorem of_same (names : w'.names = w.names) (pins : w'.pins = w.pins) (views : w'.views = w.views)
    (observers : w'.observers.size = w.observers.size)
    (observed : ∀ o path effect, w'.Observed o path effect ↔ w.Observed o path effect)
    (documents : w'.documents = w.documents) : Redraws kind w w' :=
  ⟨names, pins, views, observers, observed, congrArg Array.size documents,
    fun _ doc there => ⟨doc, documents ▸ there, .refl⟩⟩

/-- What is redrawn while things are pinned that are alive anyway. -/
theorem unpin {pins : List Pin} (redraws : Redraws kind { w with pins := pins ++ w.pins } w') :
    Redraws kind w { w' with pins := w.pins } :=
  { redraws with
    pins := rfl
    documents := fun d doc there => by
      have more : HoldsOn w { w with pins := pins ++ w.pins } :=
        .of_pins rfl (fun _ member => List.mem_append_right _ member) rfl fun _ _ _ observed =>
          observed
      obtain ⟨doc', there', redrawn⟩ := redraws.documents d doc there
      exact ⟨doc', there', redrawn.mono (fun _ => id) fun _ => more.held⟩ }

section Intact

variable (intact : w.Intact) (redraws : Redraws kind w w')
include intact redraws

theorem settles {d : DocumentId} {doc : Document (Listener κ)}
    (there : w.documents[d]? = some doc) : ∃ doc', w'.documents[d]? = some doc' ∧
      Settles (fun n => w.held ⟨d, n⟩ = true) (Targeted kind d) doc doc' := by
  obtain ⟨doc', there', redrawn⟩ := redraws.documents d doc there
  refine ⟨doc', there', redrawn.settles (intact.formed d doc there) fun n isHeld => ?_⟩
  obtain ⟨doc₀, there₀, inside⟩ := intact.inside ⟨d, n⟩ isHeld
  obtain rfl := Option.some.inj (there.symm.trans there₀)
  exact inside

theorem grows : Grows w w' := by
  refine ⟨redraws.holdsOn, fun d doc there => ?_⟩
  obtain ⟨doc', there', settles⟩ := redraws.settles intact there
  exact ⟨doc', there', settles.grown, settles.kind⟩

theorem keeps_intact : w'.Intact := by
  refine ⟨fun d doc' there' => ?_, fun ref isHeld => ?_,
    fun o path v ref pieces alive observed => ?_⟩
  · obtain ⟨inside, -⟩ := Array.getElem?_eq_some_iff.mp there'
    obtain ⟨doc₁, there₁, settles⟩ :=
      redraws.settles intact (Array.getElem?_eq_getElem (redraws.size ▸ inside))
    obtain rfl := Option.some.inj (there'.symm.trans there₁)
    exact settles.formed
  · exact (redraws.grows intact).inside (intact.inside ref (redraws.back.held isHeld))
  · have alive := redraws.back.observerAlive alive
    have observed := redraws.back.observed _ _ _ observed
    have isHeld : w.held ref = true :=
      held_iff.mpr (.inr (.inr ⟨o, path, _, alive, observed, rfl⟩))
    exact (redraws.grows intact).isText isHeld (intact.texts o path v ref pieces alive observed)

end Intact
end Redraws
end World
end ReactiveView
