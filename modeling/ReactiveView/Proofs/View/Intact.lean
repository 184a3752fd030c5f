import ReactiveView.Proofs.Document.Operation
import ReactiveView.Proofs.View.Holding

/-! Worlds whose references are in order: documents are well formed, whatever is held has a slot in
its document, and living observers render templates into text nodes only. Letting go of things keeps
this up, and so does every change of a document that is made of moves, because no move takes a slot
that is held. -/
namespace ReactiveView

variable {κ : Type}

namespace Document

variable {ℓ : Type} {held : NodeId → Bool}

/-- What is held keeps its kind, whatever moves are made. -/
theorem kind_moveAll {moves : List (Move ℓ)} {doc : Document ℓ} (formed : doc.WellFormed)
    (inside : ∀ n, held n = true → n < doc.size) (fits : FitAll held doc moves) {n : NodeId}
    (isHeld : held n = true) : ((moveAll held doc moves).node n).kind = (doc.node n).kind := by
  induction moves generalizing doc with
  | nil => rfl
  | cons m rest ih =>
    have first : ((m.apply held doc).node n).kind = (doc.node n).kind := by
      refine (formed.kind_tag_move fits.1 ?_).1
      intro new _
      exact ((allocates_alloc formed held new).apart formed inside (.held isHeld)).symm
    refine (ih (formed.move fits.1) ?_ fits.2).trans first
    intro m' isHeld'
    exact Nat.lt_of_lt_of_le (inside m' isHeld') (formed.size_move m)

end Document

namespace World

variable {w w' w'' : World κ} {ref : NodeRef} {o : ObserverId}

theorem Observed.unique {path path' : String} {effect effect' : Effect κ}
    (observed : w.Observed o path effect) (observed' : w.Observed o path' effect') :
    path = path' ∧ effect = effect' := by
  obtain ⟨value, found⟩ := observed
  obtain ⟨value', found'⟩ := observed'
  cases found.symm.trans found'
  exact ⟨rfl, rfl⟩

theorem Observed.lt {path : String} {effect : Effect κ} (observed : w.Observed o path effect) :
    o < w.observers.size := by
  obtain ⟨value, found⟩ := observed
  exact (Array.getElem?_eq_some_iff.mp found).1

/-- An observer is the last one, or it was there before. -/
theorem observed_push {path path' : String} {value : Value} {effect effect' : Effect κ}
    (observers : w'.observers = w.observers.push { path, value, effect }) :
    w'.Observed o path' effect' ↔
      w.Observed o path' effect' ∨ o = w.observers.size ∧ path' = path ∧ effect' = effect := by
  simp only [Observed, observers, Array.getElem?_push]
  constructor
  · rintro ⟨value', found⟩
    split at found
    · rename_i last
      cases found
      exact .inr ⟨last, rfl, rfl⟩
    · exact .inl ⟨value', found⟩
  · rintro (⟨value', found⟩ | ⟨rfl, rfl, rfl⟩)
    · have old := (Array.getElem?_eq_some_iff.mp found).1
      exact ⟨value', by rw [if_neg (Nat.ne_of_lt old), found]⟩
    · exact ⟨value, if_pos rfl⟩

/-- The second world refers to everything that the first one refers to. -/
structure HoldsOn (w w' : World κ) : Prop where
  roots : ∀ pin, w.roots pin = true → w'.roots pin = true
  views : ∀ (v : ViewId) view, w.views[v]? = some view →
    ∃ view', w'.views[v]? = some view' ∧ view'.mount = view.mount ∧ view.observers ⊆ view'.observers
  observed : ∀ o path effect, w.Observed o path effect → w'.Observed o path effect

namespace HoldsOn

theorem refl (w : World κ) : HoldsOn w w :=
  ⟨fun _ root => root, fun _ view found => ⟨view, found, rfl, List.Subset.refl _⟩,
    fun _ _ _ observed => observed⟩

theorem trans (first : HoldsOn w w') (second : HoldsOn w' w'') : HoldsOn w w'' := by
  refine ⟨fun pin root => second.roots pin (first.roots pin root), ?_,
    fun o path effect observed =>
      second.observed o path effect (first.observed o path effect observed)⟩
  intro v view found
  obtain ⟨view', found', mount, more⟩ := first.views v view found
  obtain ⟨view'', found'', mount', more'⟩ := second.views v view' found'
  exact ⟨view'', found'', mount'.trans mount, List.Subset.trans more more'⟩

/-- Names, views and observers are as before, and pins as far as they were there. -/
theorem of_pins (names : w'.names = w.names) (pins : ∀ pin ∈ w.pins, pin ∈ w'.pins)
    (views : w'.views = w.views)
    (observed : ∀ o path effect, w.Observed o path effect → w'.Observed o path effect) :
    HoldsOn w w' := by
  refine ⟨?_, fun v view found => ⟨view, views ▸ found, rfl, List.Subset.refl _⟩, observed⟩
  intro pin root
  cases pin <;>
  · simp only [World.roots, viewAlive, Bool.or_eq_true, List.contains_iff_mem, names] at root ⊢
    exact root.imp_right (pins _)

variable (holdsOn : HoldsOn w w')
include holdsOn

theorem observerAlive (alive : w.observerAlive o = true) : w'.observerAlive o = true := by
  rw [observerAlive_iff] at alive ⊢
  obtain root | ⟨v, view, alive, found, member⟩ := alive
  · exact .inl (holdsOn.roots _ root)
  · obtain ⟨view', found', -, more⟩ := holdsOn.views v view found
    exact .inr ⟨v, view', holdsOn.roots (.view v) alive, found', more member⟩

theorem held (isHeld : w.held ref = true) : w'.held ref = true := by
  rw [held_iff] at isHeld ⊢
  obtain root | ⟨v, view, alive, found, mount⟩ | ⟨o, path, effect, alive, observed, target⟩ :=
    isHeld
  · exact .inl (holdsOn.roots _ root)
  · obtain ⟨view', found', same, -⟩ := holdsOn.views v view found
    exact .inr (.inl ⟨v, view', holdsOn.roots (.view v) alive, found', same.trans mount⟩)
  · exact .inr (.inr ⟨o, path, effect, holdsOn.observerAlive alive,
      holdsOn.observed o path effect observed, target⟩)

end HoldsOn

/-- The node has a slot. -/
def Inside (w : World κ) (ref : NodeRef) : Prop :=
  ∃ doc, w.documents[ref.document]? = some doc ∧ ref.node < doc.size

def IsText (w : World κ) (ref : NodeRef) : Prop :=
  ∃ doc, w.documents[ref.document]? = some doc ∧ (doc.node ref.node).kind = .text

structure Intact (w : World κ) : Prop where
  formed : ∀ (d : DocumentId) doc, w.documents[d]? = some doc → doc.WellFormed
  inside : ∀ ref, w.held ref = true → w.Inside ref
  texts : ∀ o path v ref pieces, w.observerAlive o = true →
    w.Observed o path (.template v ref pieces) → w.IsText ref

/-- Before anything refers to them, documents only need to be well formed. -/
theorem intact_start {documents : Array (Document (Listener κ))}
    (formed : ∀ doc ∈ documents, doc.WellFormed) : ({ documents } : World κ).Intact := by
  have unseen : ∀ o path effect, ¬ ({ documents } : World κ).Observed o path effect := by
    rintro o path effect ⟨value, found⟩
    cases found
  constructor
  · intro d doc there
    exact formed doc (Array.mem_of_getElem? there)
  · intro ref isHeld
    obtain root | ⟨_, _, _, found, -⟩ | ⟨_, _, _, -, observed, -⟩ := held_iff.mp isHeld
    · cases root
    · cases found
    · exact (unseen _ _ _ observed).elim
  · intro _ _ _ _ _ _ observed
    exact (unseen _ _ _ observed).elim

/-- Nothing is wrong with a world that refers to less. -/
theorem Intact.fewer (intact : w.Intact) (fewer : HoldsOn w' w)
    (documents : w'.documents = w.documents) : w'.Intact := by
  refine ⟨documents ▸ intact.formed, ?_, ?_⟩
  · intro ref isHeld
    simpa only [Inside, documents] using intact.inside ref (fewer.held isHeld)
  · intro o path v ref pieces alive observed
    simpa only [IsText, documents] using
      intact.texts o path v ref pieces (fewer.observerAlive alive) (fewer.observed _ _ _ observed)

/-- What may be pinned: nodes that have slots, and views that are still to be made. -/
def Admits (w : World κ) : Pin → Prop
  | .node ref => w.Inside ref
  | .observer _ => False
  | .view v => w.views[v]? = none

/-- A target that is in order for an effect. -/
def Suits (w : World κ) (effect : Effect κ) : Prop :=
  (∀ ref, effect.target? = some ref → w.Inside ref) ∧
    ∀ v ref pieces, effect = .template v ref pieces → w.IsText ref

/-- The target of an effect that may start is in order for it. -/
theorem Intact.suits (intact : w.Intact) {path : String} {effect : Effect κ}
    (alive : w.observerAlive o = true) (observed : w.Observed o path effect) : w.Suits effect := by
  refine ⟨fun ref target => intact.inside ref ?_, fun v ref pieces same => ?_⟩
  · exact held_iff.mpr (.inr (.inr ⟨o, path, effect, alive, observed, target⟩))
  · subst same
    exact intact.texts o path v ref pieces alive observed

/-- Pins that are admitted, a view without observers and fresh observers come in. -/
structure Accepts (fresh : ObserverId → Prop) (w w' : World κ) : Prop where
  roots : ∀ pin, (∀ o, pin = .observer o → ¬ fresh o) → w'.roots pin = true →
    w.roots pin = true ∨ w.Admits pin
  views : ∀ (v : ViewId) view', w'.views[v]? = some view' →
    (∃ view, w.views[v]? = some view ∧ view'.mount = view.mount ∧
      ∀ o ∈ view'.observers, o ∈ view.observers ∨ fresh o) ∨
    (∀ ref, view'.mount = some ref → w.Inside ref) ∧ view'.observers = []

section Accepting

variable {fresh : ObserverId → Prop} (accepts : Accepts fresh w w')
include accepts

theorem Accepts.viewAlive {v : ViewId} {view : View κ} (now : w'.viewAlive v = true)
    (was : w.views[v]? = some view) : w.viewAlive v = true := by
  obtain root | new := accepts.roots (.view v) (fun _ same => nomatch same) now
  · exact root
  · cases was.symm.trans new

theorem Accepts.observerAlive (old : ¬ fresh o) (now : w'.observerAlive o = true) :
    w.observerAlive o = true := by
  rw [observerAlive_iff] at now ⊢
  obtain root | ⟨v, view', now, found, member⟩ := now
  · have other : ∀ p, Pin.observer o = .observer p → ¬ fresh p := by
      rintro _ ⟨⟩
      exact old
    exact .inl ((accepts.roots _ other root).resolve_right id)
  · obtain ⟨view, was, -, members⟩ | ⟨-, none⟩ := accepts.views v view' found
    · exact .inr ⟨v, view, accepts.viewAlive now was, was, (members o member).resolve_right old⟩
    · rw [none] at member
      cases member

/-- References come in as long as they are in order. -/
theorem Intact.more (intact : w.Intact) (documents : w'.documents = w.documents)
    (observed : ∀ o path effect, w'.Observed o path effect →
      ¬ fresh o ∧ w.Observed o path effect ∨ w.Suits effect) : w'.Intact := by
  constructor
  · exact documents ▸ intact.formed
  · intro ref isHeld
    simp only [Inside, documents]
    obtain root | ⟨v, view', now, found, mount⟩ | ⟨o, path, effect, now, isObserved, target⟩ :=
      held_iff.mp isHeld
    · obtain root | inside := accepts.roots (.node ref) (fun _ same => nomatch same) root
      · exact intact.inside ref (held_iff.mpr (.inl root))
      · exact inside
    · obtain ⟨view, was, same, -⟩ | ⟨inside, -⟩ := accepts.views v view' found
      · exact intact.inside ref (held_iff.mpr
          (.inr (.inl ⟨v, view, accepts.viewAlive now was, was, same.symm.trans mount⟩)))
      · exact inside ref mount
    · obtain ⟨old, was⟩ | suits := observed o path effect isObserved
      · exact intact.inside ref
          (held_iff.mpr (.inr (.inr ⟨o, path, effect, accepts.observerAlive old now, was, target⟩)))
      · exact suits.1 ref target
  · intro o path v ref pieces now isObserved
    simp only [IsText, documents]
    obtain ⟨old, was⟩ | suits := observed o path _ isObserved
    · exact intact.texts o path v ref pieces (accepts.observerAlive old now) was
    · exact suits.2 v ref pieces rfl

end Accepting

/-- A root of a world with more pins is one of the pins, or it was a root before. -/
theorem roots_pinned {pins : List Pin} {pin : Pin}
    (root : ({ w with pins := pins ++ w.pins } : World κ).roots pin = true) :
    w.roots pin = true ∨ pin ∈ pins := by
  cases pin <;>
  · simp only [World.roots, viewAlive, Bool.or_eq_true, List.contains_iff_mem,
      List.mem_append] at root ⊢
    obtain named | pinned | was := root
    · exact .inl (.inl named)
    · exact .inr pinned
    · exact .inl (.inr was)

/-- What may be pinned by code. -/
def Reaches (w : World κ) : Pin → Prop
  | .node _ => True
  | .observer o => w.observerAlive o = true
  | .view v => w.viewAlive v = true

section Pinning

variable {pins : List Pin}

/-- Pinning what was reached brings nothing to life. -/
theorem viewAlive_pinning (reached : ∀ pin ∈ pins, w.Reaches pin) (v : ViewId) :
    ({ w with pins := pins ++ w.pins } : World κ).viewAlive v = w.viewAlive v := by
  refine Bool.eq_iff_iff.mpr ⟨fun alive => ?_, fun alive => ?_⟩
  · have root : World.roots { w with pins := pins ++ w.pins } (.view v) = true := alive
    obtain root | member := roots_pinned root
    · exact root
    · exact reached _ member
  · simp only [viewAlive, Bool.or_eq_true, List.contains_iff_mem, List.mem_append] at alive ⊢
    exact alive.imp_right .inr

theorem observerAlive_pinning (reached : ∀ pin ∈ pins, w.Reaches pin) (o : ObserverId) :
    ({ w with pins := pins ++ w.pins } : World κ).observerAlive o = w.observerAlive o := by
  refine Bool.eq_iff_iff.mpr ⟨fun alive => ?_, fun alive => ?_⟩
  · rw [observerAlive_iff] at alive
    obtain root | ⟨v, view, alive, found, member⟩ := alive
    · obtain root | member := roots_pinned root
      · exact observerAlive_iff.mpr (.inl root)
      · exact reached _ member
    · rw [viewAlive_pinning reached] at alive
      exact observerAlive_iff.mpr (.inr ⟨v, view, alive, found, member⟩)
  · have more : HoldsOn w { w with pins := pins ++ w.pins } :=
      .of_pins rfl (fun _ member => List.mem_append_right _ member) rfl fun _ _ _ observed =>
        observed
    exact more.observerAlive alive

/-- What was reached may be pinned, and nodes that have slots. -/
theorem Intact.pinning (intact : w.Intact) (reached : ∀ pin ∈ pins, w.Reaches pin)
    (nodes : ∀ ref, .node ref ∈ pins → w.Inside ref) :
    ({ w with pins := pins ++ w.pins } : World κ).Intact := by
  refine ⟨intact.formed, fun ref isHeld => ?_, fun o path v ref pieces alive observed => ?_⟩
  · obtain root | ⟨v, view, alive, found, mount⟩ | ⟨o, path, effect, alive, observed, target⟩ :=
      held_iff.mp isHeld
    · obtain was | member := roots_pinned root
      · exact intact.inside ref (held_iff.mpr (.inl was))
      · exact nodes ref member
    · have alive := viewAlive_pinning reached v ▸ alive
      exact intact.inside ref (held_iff.mpr (.inr (.inl ⟨v, view, alive, found, mount⟩)))
    · have alive := observerAlive_pinning reached o ▸ alive
      exact intact.inside ref
        (held_iff.mpr (.inr (.inr ⟨o, path, effect, alive, observed, target⟩)))
  · exact intact.texts o path v ref pieces (observerAlive_pinning reached o ▸ alive) observed

end Pinning

theorem Intact.pin (intact : w.Intact) {pins : List Pin}
    (admitted : ∀ pin ∈ pins, w.roots pin = true ∨ w.Admits pin) :
    ({ w with pins := pins ++ w.pins } : World κ).Intact := by
  have accepts : Accepts (fun _ => False) w { w with pins := pins ++ w.pins } := by
    refine ⟨fun pin _ root => ?_, fun v view found => ?_⟩
    · obtain was | member := roots_pinned root
      · exact .inl was
      · exact admitted pin member
    · exact .inl ⟨view, found, rfl, fun o member => .inl member⟩
  exact intact.more accepts rfl fun o path effect observed => .inl ⟨id, observed⟩

/-- A view without observers is made, and is pinned. -/
theorem accepts_making {stores : Array (Store (Computed κ))} {view : View κ}
    (mounted : ∀ ref, view.mount = some ref → w.Inside ref) (none : view.observers = []) :
    Accepts (fun _ => False) w
      { w with stores, views := w.views.push view, pins := .view w.views.size :: w.pins } := by
  refine ⟨fun pin _ root => ?_, fun u other found => ?_⟩
  · have either : w.roots pin = true ∨ pin ∈ [.view w.views.size] := roots_pinned root
    refine either.imp_right fun member => ?_
    obtain rfl := List.mem_singleton.mp member
    exact Array.getElem?_eq_none (Nat.le_refl _)
  · have found := Array.getElem?_push.symm.trans found
    split at found
    · obtain rfl := Option.some.inj found
      exact .inr ⟨mounted, none⟩
    · exact .inl ⟨other, found, rfl, fun o member => .inl member⟩

/-- Pins come off again. -/
theorem Intact.unpin (intact : w'.Intact) {pins : List Pin} (pinned : w'.pins = pins ++ w.pins) :
    ({ w' with pins := w.pins } : World κ).Intact := by
  have less : HoldsOn { w' with pins := w.pins } w' := by
    refine .of_pins rfl ?_ rfl fun _ _ _ observed => observed
    intro pin member
    rw [pinned]
    exact List.mem_append_right _ member
  exact intact.fewer less rfl

/-- Everything is still referred to, documents have not lost slots, and held nodes are of the kinds
that they were of. -/
structure Grows (w w' : World κ) : Prop where
  holdsOn : HoldsOn w w'
  documents : ∀ (d : DocumentId) doc, w.documents[d]? = some doc →
    ∃ doc', w'.documents[d]? = some doc' ∧ doc.size ≤ doc'.size ∧
      ∀ n, w.held ⟨d, n⟩ = true → (doc'.node n).kind = (doc.node n).kind

namespace Grows

theorem of_documents (holdsOn : HoldsOn w w') (documents : w'.documents = w.documents) :
    Grows w w' :=
  ⟨holdsOn, fun _ doc there => ⟨doc, documents ▸ there, Nat.le_refl _, fun _ _ => rfl⟩⟩

theorem refl (w : World κ) : Grows w w :=
  of_documents (.refl w) rfl

theorem trans (first : Grows w w') (second : Grows w' w'') : Grows w w'' := by
  refine ⟨first.holdsOn.trans second.holdsOn, ?_⟩
  intro d doc there
  obtain ⟨doc', there', grown, kinds⟩ := first.documents d doc there
  obtain ⟨doc'', there'', grown', kinds'⟩ := second.documents d doc' there'
  refine ⟨doc'', there'', Nat.le_trans grown grown', ?_⟩
  intro n isHeld
  exact (kinds' n (first.holdsOn.held isHeld)).trans (kinds n isHeld)

variable (grows : Grows w w')
include grows

theorem inside (inside : w.Inside ref) : w'.Inside ref := by
  obtain ⟨doc, there, inside⟩ := inside
  obtain ⟨doc', there', grown, -⟩ := grows.documents _ doc there
  exact ⟨doc', there', Nat.lt_of_lt_of_le inside grown⟩

theorem isText (isHeld : w.held ref = true) (isText : w.IsText ref) : w'.IsText ref := by
  obtain ⟨doc, there, kind⟩ := isText
  obtain ⟨doc', there', -, kinds⟩ := grows.documents _ doc there
  exact ⟨doc', there', (kinds ref.node isHeld).trans kind⟩

end Grows

/-- One document is changed, and nothing else. -/
theorem Intact.modify (intact : w.Intact) {d : DocumentId} {doc : Document (Listener κ)}
    (there : w.documents[d]? = some doc) {f : Document (Listener κ) → Document (Listener κ)}
    (formed : (f doc).WellFormed) (grown : doc.size ≤ (f doc).size)
    (kinds : ∀ n, w.held ⟨d, n⟩ = true → ((f doc).node n).kind = (doc.node n).kind) :
    ({ w with documents := w.documents.modify d f } : World κ).Intact ∧
      Grows w { w with documents := w.documents.modify d f } := by
  have same : HoldsOn w { w with documents := w.documents.modify d f } :=
    .of_pins rfl (fun _ pinned => pinned) rfl fun _ _ _ observed => observed
  have grows : Grows w { w with documents := w.documents.modify d f } := by
    refine ⟨same, ?_⟩
    intro other before was
    by_cases here : d = other
    · subst here
      obtain rfl := Option.some.inj (there.symm.trans was)
      refine ⟨f doc, ?_, grown, kinds⟩
      simp only [Array.getElem?_modify, if_true, there, Option.map_some]
    · refine ⟨before, ?_, Nat.le_refl _, fun _ _ => rfl⟩
      simpa only [Array.getElem?_modify, here, if_false] using was
  refine ⟨⟨?_, ?_, ?_⟩, grows⟩
  · intro other after found
    simp only [Array.getElem?_modify] at found
    split at found
    · rename_i here
      subst here
      rw [there] at found
      exact Option.some.inj found ▸ formed
    · exact intact.formed other after found
  · intro ref isHeld
    exact grows.inside (intact.inside ref isHeld)
  · intro o path v ref pieces alive observed
    have isHeld : w.held ref = true :=
      held_iff.mpr (.inr (.inr ⟨o, path, _, alive, observed, rfl⟩))
    exact grows.isText isHeld (intact.texts o path v ref pieces alive observed)

/-- Moves in a document harm nothing. -/
theorem Intact.move (intact : w.Intact) {d : DocumentId} {doc : Document (Listener κ)}
    (there : w.documents[d]? = some doc) {f : Document (Listener κ) → Document (Listener κ)}
    {moves : List (Document.Move (Listener κ))}
    (fits : Document.FitAll (fun n => w.held ⟨d, n⟩) doc moves)
    (moved : f doc = Document.moveAll (fun n => w.held ⟨d, n⟩) doc moves) :
    ({ w with documents := w.documents.modify d f } : World κ).Intact ∧
      Grows w { w with documents := w.documents.modify d f } := by
  have formed := intact.formed d doc there
  obtain ⟨formed', grown⟩ := formed.moveAll fits
  rw [← moved] at formed' grown
  refine intact.modify there formed' grown ?_
  intro n isHeld
  rw [moved]
  refine Document.kind_moveAll formed ?_ fits isHeld
  intro m isHeld'
  obtain ⟨doc', there', inside⟩ := intact.inside ⟨d, m⟩ isHeld'
  obtain rfl := Option.some.inj (there.symm.trans there')
  exact inside

end World
end ReactiveView
