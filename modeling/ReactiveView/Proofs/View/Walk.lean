import ReactiveView.Proofs.Reaction.Currency
import ReactiveView.Proofs.View.Site

/-! The world during the walk that binds a view. Every observer that the view has so far holds the
value of its path, is registered where the path passes, and writes to a node that a directive or a
slot ties it to. What is bound stays bound, whatever the walk does after that. -/
namespace ReactiveView

variable {κ : Type}

namespace Store

/-- Tracking registers nobody else. -/
theorem entries_track {s : Store (Computed κ)} {o p : ObserverId} {cells : List CellId} {c : CellId}
    (registered : p ∈ ((s.track (some o) cells).registry c).entries) :
    p = o ∨ p ∈ (s.registry c).entries := by
  rw [registry_track] at registered
  split at registered
  · exact (Registry.mem_entries_depend.mp registered).symm
  · exact .inr registered

end Store

/-- The world after a document was changed. -/
def World.editing (w : World κ) (d : DocumentId)
    (f : (NodeId → Bool) → Document (Listener κ) → Document (Listener κ)) : World κ :=
  { w with documents := w.documents.modify d (f fun n => w.held ⟨d, n⟩) }

/-- The world with one more observer, which a view keeps alive. -/
def World.joining (w : World κ) (v : ViewId) (id : StoreId) (s : Store (Computed κ))
    (observer : Observer κ) : World κ :=
  { w.observing id s observer with
    views := w.views.modify v fun view =>
      { view with observers := view.observers ++ [w.observers.size] } }

namespace Site

open Document Run

variable (site : Site κ)

def doc (w : World κ) : Document (Listener κ) :=
  w.documents[site.document]?.getD .empty

def made (w : World κ) : View κ :=
  w.views[site.view]?.getD { store := 0, methods := [], mount := none }

def cells (w : World κ) : Store (Computed κ) :=
  w.stores[site.store]?.getD (.ofValue .null)

/-- The view has an observer with this path and this effect. -/
def Has (w : World κ) (path : String) (effect : Effect κ) : Prop :=
  ∃ o ∈ (site.made w).observers, ∃ observer, w.observers[o]? = some observer ∧
    observer.path = path ∧ observer.effect = effect

def Targets (w : World κ) (n : NodeId) : Prop :=
  ∃ path effect, site.Has w path effect ∧ effect.target? = some ⟨site.document, n⟩

/-- An effect that a directive or a slot sets up for a node. -/
inductive Ties (doc : Document (Listener κ)) (path : String) : Effect κ → Prop
  | formValue (n : NodeId) : (doc.node n).kind = .element → path ∈ (doc.node n).models →
      Ties doc path (.formValue ⟨site.document, n⟩)
  | html (n : NodeId) : n ≠ site.target → ¬ (doc.node n).KeepsChildren →
      Ties doc path (.html ⟨site.document, n⟩)
  | text (n : NodeId) : (doc.node n).kind = .element → n ≠ site.target →
      ¬ (doc.node n).KeepsChildren → Ties doc path (.text ⟨site.document, n⟩)
  | template (n : NodeId) (pieces : List Piece) : (doc.node n).kind = .text →
      (site.Text n → pieces = site.template n) →
      Ties doc path (.template site.view ⟨site.document, n⟩ pieces)

/-- An observer that is up to date and stays registered. -/
structure Observes (w : World κ) (o : ObserverId) (observer : Observer κ) : Prop where
  found : w.observers[o]? = some observer
  value : site.data.read observer.path = .ok observer.value
  registered : ∀ c ∈ site.data.cellsAt observer.path, o ∈ ((site.cells w).registry c).entries
  ties : site.Ties (site.doc w) observer.path observer.effect
  inside : ∀ n, observer.effect.target? = some ⟨site.document, n⟩ → n < (site.doc w).size

/-- The world during the walk, when some texts are bound already. -/
structure Walked (prior : Listener κ → Prop) (bound : NodeId → Prop) (w : World κ) : Prop where
  found : w.views[site.view]? = some (site.made w)
  here : w.stores[site.store]? = some (site.cells w)
  there : w.documents[site.document]? = some (site.doc w)
  alive : .view site.view ∈ w.pins
  pinned : .node ⟨site.document, site.top⟩ ∈ w.pins
  plain : site.data.Plain
  sound : site.data.Sound
  base : site.base.WellFormed ∧ (site.base.node site.top).parent = none
  store : (site.made w).store = site.store
  mount : (site.made w).mount = some ⟨site.document, site.target⟩
  methods : (site.made w).methods = site.methods
  same : Store.SameData site.data (site.cells w)
  subscribed : ∀ (c : CellId) (o : ObserverId), o ∈ ((site.cells w).registry c).entries →
    o ∈ (site.made w).observers
  observers : ∀ o ∈ (site.made w).observers, ∃ observer, site.Observes w o observer
  slots : ∀ n, site.Text n → bound n → ∀ path ∈ Template.paths (site.template n),
    site.Has w path (.template site.view ⟨site.document, n⟩ (site.template n))
  holds : site.Holds prior bound (site.doc w)

/-- A path that an element is bound to has an observer, and `input` writes it. -/
def Linked (w : World κ) (n : NodeId) (path : String) : Prop :=
  site.Has w path (.formValue ⟨site.document, n⟩) ∧
    .writeBack site.view path ∈ ((site.doc w).node n).listenersOf "input"

/-- The form value is the value at the path. -/
def Shows (w : World κ) (n : NodeId) (path : String) : Prop :=
  ∃ v, site.data.read path = .ok v ∧ ((site.doc w).node n).value = v.propertyText

/-- An element with `v-model` that is bound. -/
structure Bound (w : World κ) (n : NodeId) : Prop where
  kind : ((site.doc w).node n).kind = .element
  some : ((site.doc w).node n).models ≠ []
  linked : ∀ path ∈ ((site.doc w).node n).models, site.Linked w n path
  shows : ∀ path, ((site.doc w).node n).models = [path] → site.Shows w n path

/-- The content of the node is the value at the path, as it reads when it is taken for
a template. -/
def Interprets (w : World κ) (n : NodeId) (path : String) : Prop :=
  ∃ v text, site.data.read path = .ok v ∧
    site.data.render (Template.ofString v.propertyText) = .ok text ∧ (site.doc w).Labelled n text

/-- If the node is an element with `v-model`, then it is bound; and an element that has nothing but
a `v-text` has its content. -/
structure Settled (w : World κ) (n : NodeId) : Prop where
  bound : ((site.doc w).node n).kind = .element → ((site.doc w).node n).models ≠ [] → site.Bound w n
  text : ∀ path, ((site.doc w).node n).kind = .element →
    ((site.doc w).node n).directives = [.text path] → site.Interprets w n path

/-- How the walk gets on below some nodes. -/
structure Advances (avoided : NodeId → Prop) (w w' : World κ) : Prop where
  pins : w'.pins = w.pins
  spares : Spares site.top avoided (site.doc w) (site.doc w')
  has : ∀ path effect, site.Has w path effect → site.Has w' path effect
  linked : ∀ n path, site.Linked w n path → site.Linked w' n path
  bound : ∀ n, site.Bound w n → site.Bound w' n

/-- Observers were added, and that is all. -/
structure Adds (w w' : World κ) : Prop where
  pins : w'.pins = w.pins
  doc : site.doc w' = site.doc w
  has : ∀ path effect, site.Has w path effect → site.Has w' path effect

variable {site} {perform : Performer κ} {prior : Listener κ → Prop}
  {bound bound' avoided avoided' : NodeId → Prop}
  {w w' w'' : World κ} {x p n : NodeId} {path : String} {effect : Effect κ}

section Relations

theorem Advances.refl (avoided : NodeId → Prop) (w : World κ) : site.Advances avoided w w :=
  ⟨rfl, .refl _ _ _, fun _ _ has => has, fun _ _ linked => linked, fun _ bound => bound⟩

theorem Advances.trans (first : site.Advances avoided w w')
    (second : site.Advances avoided w' w'') :
    site.Advances avoided w w'' where
  pins := second.pins.trans first.pins
  spares := first.spares.trans second.spares
  has path effect has := second.has path effect (first.has path effect has)
  linked n path linked := second.linked n path (first.linked n path linked)
  bound n bound := second.bound n (first.bound n bound)

theorem Adds.refl (w : World κ) : site.Adds w w :=
  ⟨rfl, rfl, fun _ _ has => has⟩

theorem Adds.trans (first : site.Adds w w') (second : site.Adds w' w'') : site.Adds w w'' :=
  ⟨second.pins.trans first.pins, second.doc.trans first.doc,
    fun path effect has => second.has path effect (first.has path effect has)⟩

theorem Adds.advances (adds : site.Adds w w') (avoided : NodeId → Prop) :
    site.Advances avoided w w' := by
  have linked : ∀ n path, site.Linked w n path → site.Linked w' n path := by
    rintro n path ⟨has, listens⟩
    exact ⟨adds.has _ _ has, adds.doc ▸ listens⟩
  refine ⟨adds.pins, adds.doc ▸ .refl _ _ _, adds.has, linked, fun n bound => ?_⟩
  refine ⟨adds.doc ▸ bound.kind, adds.doc ▸ bound.some, ?_, ?_⟩
  · rw [adds.doc]
    exact fun path member => linked n path (bound.linked path member)
  · unfold Shows
    rw [adds.doc]
    exact bound.shows

/-- A node that stays with its children is settled if it was. -/
theorem Settled.stays (settled : site.Settled w n) (advances : site.Advances avoided w w')
    (stays : ((site.doc w).node n).Stays ((site.doc w').node n))
    (below : ∀ c ∈ ((site.doc w).node n).children,
      ((site.doc w).node c).Stays ((site.doc w').node c)) : site.Settled w' n where
  bound kind some := by
    rw [stays.kind] at kind
    rw [Node.models_congr stays.attributes] at some
    exact advances.bound n (settled.bound kind some)
  text path kind only := by
    rw [stays.kind] at kind
    rw [Node.directives_congr stays.attributes] at only
    obtain ⟨v, text, read, comesTo, labelled⟩ := settled.text path kind only
    exact ⟨v, text, read, comesTo, labelled.congr stays.children fun c member =>
      ⟨(below c member).kind, (below c member).data⟩⟩

theorem Ties.congr {doc doc' : Document (Listener κ)} (ties : site.Ties doc path effect)
    (same : ∀ n, effect.target? = some ⟨site.document, n⟩ →
      (doc'.node n).kind = (doc.node n).kind ∧ (doc'.node n).attributes = (doc.node n).attributes) :
    site.Ties doc' path effect := by
  cases ties with
  | formValue n kind bound =>
    obtain ⟨kind', attributes⟩ := same n rfl
    exact .formValue n (kind'.trans kind) (Node.models_congr attributes ▸ bound)
  | html n other replaces =>
    obtain ⟨kind', attributes⟩ := same n rfl
    exact .html n other fun keeps => replaces ((Node.keepsChildren_congr kind' attributes).mp keeps)
  | text n kind other replaces =>
    obtain ⟨kind', attributes⟩ := same n rfl
    exact .text n (kind'.trans kind) other fun keeps =>
      replaces ((Node.keepsChildren_congr kind' attributes).mp keeps)
  | template n pieces kind only => exact .template n pieces ((same n rfl).1.trans kind) only

end Relations

namespace Walked

/-- Pins come and go, as long as the view and the fragment are held. -/
theorem repin (walked : site.Walked prior bound w) (pins : List Pin)
    (alive : .view site.view ∈ pins) (pinned : .node ⟨site.document, site.top⟩ ∈ pins) :
    site.Walked prior bound { w with pins := pins } :=
  { walked with
    alive := alive
    pinned := pinned
    observers := fun o member => by
      obtain ⟨observer, observes⟩ := walked.observers o member
      exact ⟨observer, observes.found, observes.value, observes.registered, observes.ties,
        observes.inside⟩ }

theorem rebind (walked : site.Walked prior bound w)
    (same : ∀ n, site.Text n → (bound n ↔ bound' n)) : site.Walked prior bound' w :=
  { walked with
    slots := fun n text isBound => walked.slots n text ((same n text).mpr isBound)
    holds := walked.holds.congr same }

theorem viewAlive (walked : site.Walked prior bound w) : w.viewAlive site.view = true :=
  World.viewAlive_pinned walked.alive

theorem held_top (walked : site.Walked prior bound w) :
    w.held ⟨site.document, site.top⟩ = true :=
  World.held_pinned walked.pinned

theorem held_mount (walked : site.Walked prior bound w) :
    w.held ⟨site.document, site.target⟩ = true :=
  World.held_mount walked.found walked.viewAlive walked.mount

theorem held_target (walked : site.Walked prior bound w) (target : site.Targets w n) :
    w.held ⟨site.document, n⟩ = true := by
  obtain ⟨path, effect, ⟨o, member, observer, found, rfl, rfl⟩, target⟩ := target
  exact World.held_target walked.found walked.viewAlive member found target

theorem target_inside (walked : site.Walked prior bound w) (target : site.Targets w n) :
    n < (site.doc w).size := by
  obtain ⟨path, effect, ⟨o, member, observer, found, rfl, rfl⟩, target⟩ := target
  obtain ⟨observer', observes⟩ := walked.observers o member
  obtain rfl := Option.some.inj (found.symm.trans observes.found)
  exact observes.inside n target

/-- The document changes, and what the observers write to stays what it is. -/
theorem edit (walked : site.Walked prior bound w)
    {f : (NodeId → Bool) → Document (Listener κ) → Document (Listener κ)}
    {doc' : Document (Listener κ)}
    (same : f (fun n => w.held ⟨site.document, n⟩) (site.doc w) = doc')
    (holds : site.Holds prior bound' doc') (grown : (site.doc w).size ≤ doc'.size)
    (targets : ∀ n, site.Targets w n → (doc'.node n).kind = ((site.doc w).node n).kind ∧
      (doc'.node n).attributes = ((site.doc w).node n).attributes)
    (slots : ∀ n, site.Text n → bound' n → ∀ path ∈ Template.paths (site.template n),
      site.Has w path (.template site.view ⟨site.document, n⟩ (site.template n))) :
    site.doc (w.editing site.document f) = doc' ∧
      site.Walked prior bound' (w.editing site.document f) := by
  have there : (w.editing site.document f).documents[site.document]? = some doc' := by
    rw [World.editing, Array.getElem?_modify, if_pos rfl, walked.there, Option.map_some, same]
  have after : site.doc (w.editing site.document f) = doc' := by
    simp only [doc, there, Option.getD_some]
  refine ⟨after,
    { walked with
      there := by rw [after]; exact there
      observers := fun o member => ?_
      slots := slots
      holds := by rw [after]; exact holds }⟩
  obtain ⟨observer, observes⟩ := walked.observers o member
  refine ⟨observer, observes.found, observes.value, observes.registered, ?_, fun n target => ?_⟩
  · rw [after]
    refine observes.ties.congr fun n target => targets n ?_
    exact ⟨_, _, ⟨o, member, observer, observes.found, rfl, rfl⟩, target⟩
  · rw [after]
    exact Nat.lt_of_lt_of_le (observes.inside n target) grown

/-- One more observer that is up to date. -/
theorem joining (walked : site.Walked prior bound w) {value : Value}
    (read : site.data.read path = .ok value) (ties : site.Ties (site.doc w) path effect)
    (inside : ∀ n, effect.target? = some ⟨site.document, n⟩ → n < (site.doc w).size)
    (after : World κ) (joined : after = w.joining site.view site.store
      ((site.cells w).track (some w.observers.size) ((site.cells w).cellsAt path))
      { path, value, effect }) :
    site.Walked prior bound after ∧ site.Adds w after ∧ site.Has after path effect ∧
      after.observers[w.observers.size]? = some { path, value, effect } := by
  let store := (site.cells w).track (some w.observers.size) ((site.cells w).cellsAt path)
  have made : after.views[site.view]? = some { site.made w with
      observers := (site.made w).observers ++ [w.observers.size] } := by
    rw [joined, World.joining, Array.getElem?_modify, if_pos rfl]
    exact congrArg (Option.map _) walked.found
  have here : after.stores[site.store]? = some store :=
    joined ▸ World.stores_withStore walked.here store
  have observers : after.observers = w.observers.push { path, value, effect } := joined ▸ rfl
  have documents : after.documents = w.documents := joined ▸ rfl
  have pins : after.pins = w.pins := joined ▸ rfl
  clear joined
  have isMade : site.made after = { site.made w with
      observers := (site.made w).observers ++ [w.observers.size] } := by
    simp only [Site.made, made, Option.getD_some]
  have cells : site.cells after = store := by
    simp only [Site.cells, here, Option.getD_some]
  have doc : site.doc after = site.doc w := by
    simp only [Site.doc, documents]
  have last : after.observers[w.observers.size]? = some { path, value, effect } := by
    rw [observers, Array.getElem?_push_size]
  have older : ∀ (o : ObserverId) observer, w.observers[o]? = some observer →
      after.observers[o]? = some observer := by
    intro o observer found
    obtain ⟨inside, -⟩ := Array.getElem?_eq_some_iff.mp found
    rw [observers, Array.getElem?_push_lt inside, ← Array.getElem?_eq_getElem inside, found]
  have passes : ∀ c ∈ site.data.cellsAt path, c < (site.cells w).cells.size := fun c passes =>
    Store.cellsOn_inside (walked.same.plain walked.plain) (walked.same.sound walked.sound)
      (walked.same.cellsAt path ▸ passes)
  have registered : ∀ (c : CellId) (o : ObserverId), o ∈ ((site.cells w).registry c).entries →
      o ∈ (store.registry c).entries :=
    fun c o before => Store.mem_registry_track (.inl before)
  have has : ∀ path effect, site.Has w path effect → site.Has after path effect := by
    rintro path effect ⟨o, member, observer, found, same⟩
    exact ⟨o, isMade ▸ List.mem_append_left _ member, observer, older o observer found, same⟩
  have hasNow : site.Has after path effect :=
    ⟨_, isMade ▸ List.mem_append_right _ (List.mem_singleton_self _), _, last, rfl, rfl⟩
  refine ⟨?_, ⟨pins, doc, has⟩, hasNow, last⟩
  refine
    { found := isMade ▸ made
      here := cells ▸ here
      there := by rw [doc, documents]; exact walked.there
      alive := pins ▸ walked.alive
      pinned := pins ▸ walked.pinned
      plain := walked.plain
      sound := walked.sound
      base := walked.base
      store := isMade ▸ walked.store
      mount := isMade ▸ walked.mount
      methods := isMade ▸ walked.methods
      same := cells ▸ walked.same.trans (.track _ _ _)
      subscribed := fun c o registers => ?_
      observers := fun o member => ?_
      slots := fun n text isBound path slot => has _ _ (walked.slots n text isBound path slot)
      holds := doc ▸ walked.holds }
  · rw [cells] at registers
    rw [isMade]
    rcases Store.entries_track registers with rfl | before
    · exact List.mem_append_right _ (List.mem_singleton_self _)
    · exact List.mem_append_left _ (walked.subscribed c o before)
  · rw [isMade] at member
    rcases List.mem_append.mp member with before | now
    · obtain ⟨observer, observes⟩ := walked.observers o before
      exact ⟨observer, older o observer observes.found, observes.value, fun c passes =>
        cells ▸ registered c o (observes.registered c passes), doc ▸ observes.ties,
        doc ▸ observes.inside⟩
    · obtain rfl := List.mem_singleton.mp now
      exact ⟨_, last, read, fun c here => cells ▸ Store.mem_registry_track
        (.inr ⟨rfl, walked.same.cellsAt path ▸ here, passes c here⟩), doc ▸ ties, doc ▸ inside⟩

/-- Making an observer for a node does nothing else. -/
theorem observe (walked : site.Walked prior bound w) {o : ObserverId}
    (ties : site.Ties (site.doc w) path effect)
    (inside : ∀ n, effect.target? = some ⟨site.document, n⟩ → n < (site.doc w).size)
    (ran : View.observe perform site.view path effect w = some (.ok o, w')) :
    site.Walked prior bound w' ∧ site.Adds w w' ∧ site.Has w' path effect ∧
      ∃ value, site.data.read path = .ok value ∧
        Run.observer o w' = some (.ok { path, value, effect }, w') := by
  unfold View.observe at ran
  rw [bind_of_ok (show Run.view site.view w = some (.ok (site.made w), w) from rfl),
    walked.store] at ran
  obtain ⟨_, w₁, observed, ran⟩ := bind_eq_ok ran
  obtain ⟨value, read, rfl, rfl⟩ :=
    observe_eq_ok (walked.same.plain walked.plain) walked.here observed
  obtain ⟨_, w₂, kept, ran⟩ := bind_eq_ok ran
  obtain ⟨-, rfl⟩ := Prod.mk.inj (Option.some.inj kept)
  obtain ⟨same, after⟩ := Prod.mk.inj (Option.some.inj ran)
  obtain rfl := Except.ok.inj same
  rw [walked.same.read] at read
  obtain ⟨walked', adds, has, last⟩ := walked.joining read ties inside w' after.symm
  refine ⟨walked', adds, has, value, read, ?_⟩
  show some (Except.ok (w'.observers[w.observers.size]?.getD _), w') = _
  rw [last]
  rfl

end Walked

/-- A change of the document keeps what is bound, if the targets of the observers keep what they
are, their listeners and the form values that they show. -/
theorem Advances.edit {doc' : Document (Listener κ)} (same : site.doc w' = doc')
    (observers : w'.observers = w.observers) (views : w'.views = w.views) (pins : w'.pins = w.pins)
    (spares : Spares site.top avoided (site.doc w) doc')
    (targets : ∀ n, site.Targets w n → (doc'.node n).kind = ((site.doc w).node n).kind ∧
      (doc'.node n).attributes = ((site.doc w).node n).attributes ∧
      ∀ listener ∈ ((site.doc w).node n).listenersOf "input",
        listener ∈ (doc'.node n).listenersOf "input")
    (values : ∀ n path, site.Targets w n → ((site.doc w).node n).models = [path] →
      site.Shows w n path → site.Shows w' n path) : site.Advances avoided w w' := by
  subst same
  have made : site.made w' = site.made w := by
    simp only [Site.made, views]
  have has : ∀ path effect, site.Has w path effect → site.Has w' path effect := by
    rintro path effect ⟨o, member, observer, found, same⟩
    exact ⟨o, made ▸ member, observer, observers ▸ found, same⟩
  have linked : ∀ n path, site.Linked w n path → site.Linked w' n path := by
    rintro n path ⟨observed, listens⟩
    exact ⟨has _ _ observed, (targets n ⟨path, _, observed, rfl⟩).2.2 _ listens⟩
  refine ⟨pins, spares, has, linked, fun n bound => ?_⟩
  obtain ⟨path, member⟩ := List.exists_mem_of_ne_nil _ bound.some
  have target : site.Targets w n := ⟨path, _, (bound.linked path member).1, rfl⟩
  obtain ⟨kind, attributes, -⟩ := targets n target
  have models := Node.models_congr attributes
  refine ⟨kind.trans bound.kind, models ▸ bound.some, ?_, ?_⟩
  · rw [models]
    exact fun path member => linked n path (bound.linked path member)
  · rw [models]
    exact fun path only => values n path target only (bound.shows path only)

end Site
end ReactiveView
