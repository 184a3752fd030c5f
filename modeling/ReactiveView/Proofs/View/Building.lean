import ReactiveView.Proofs.View.Mounting
import ReactiveView.Proofs.View.Serving

/-! Making a view. The walk that binds it pins nodes, makes observers and writes to nodes. Every one
of these steps leaves references in order and registers bindings of the view only, so the view that
comes of it is bound to its data and to nothing else. -/
namespace ReactiveView

variable {κ : Type} {perform : Performer κ} {id : StoreId} {v : ViewId}

namespace World

variable {w w' w₁ w₂ : World κ}

/-- Names and pins are as they were, and the rest has grown. -/
structure Onward (w w' : World κ) : Prop where
  names : w'.names = w.names
  pins : w'.pins = w.pins
  grows : Grows w w'

theorem Onward.refl (w : World κ) : Onward w w :=
  ⟨rfl, rfl, .refl w⟩

theorem Onward.trans (first : Onward w w₁) (second : Onward w₁ w₂) : Onward w w₂ :=
  ⟨second.names.trans first.names, second.pins.trans first.pins, first.grows.trans second.grows⟩

end World

open World

/-- Whatever comes of the run, the world serves the view and has moved onward. -/
def Run.Sustains {α : Type} (id : StoreId) (v : ViewId) (x : Run κ α) (w : World κ) : Prop :=
  ∀ r w', x w = some (r, w') → Serves id v w' ∧ Onward w w'

namespace Run

variable {α β : Type} {w : World κ}

section Combining

theorem Sustains.congr {x y : Run κ α} (same : x w = y w) (sustains : Sustains id v y w) :
    Sustains id v x w := by
  intro r w' ran
  exact sustains r w' (same ▸ ran)

theorem sustains_ofExcept (serves : Serves id v w) (r : Except BindingError α) :
    Sustains id v (Run.ofExcept r) w := by
  intro _ w' ran
  obtain ⟨-, rfl⟩ := Prod.mk.inj (Option.some.inj ran)
  exact ⟨serves, .refl w⟩

theorem sustains_pure (serves : Serves id v w) (a : α) : Sustains id v (Pure.pure a) w :=
  sustains_ofExcept serves (.ok a)

theorem Sustains.bind {x : Run κ α} {f : α → Run κ β} (first : Sustains id v x w)
    (further : ∀ a w₁, Serves id v w₁ → Onward w w₁ → Sustains id v (f a) w₁) :
    Sustains id v (x >>= f) w := by
  intro r w' ran
  obtain ⟨e, failed, -⟩ | ⟨a, w₁, done, rest⟩ := bind_eq_some ran
  · exact first _ _ failed
  · obtain ⟨serves, onward⟩ := first _ _ done
    obtain ⟨serves', onward'⟩ := further a w₁ serves onward r w' rest
    exact ⟨serves', onward.trans onward'⟩

theorem Sustains.attempt {x : Run κ α} (sustains : Sustains id v x w) :
    Sustains id v (Run.attempt x) w := by
  intro r w' ran
  obtain ⟨⟨r', _⟩, found, same⟩ := Option.map_eq_some_iff.mp ran
  obtain ⟨-, rfl⟩ := Prod.mk.inj same
  exact sustains r' _ found

theorem sustains_forM {items : List α} {f : α → Run κ PUnit} (serves : Serves id v w)
    (each : ∀ a ∈ items, ∀ w₁, Serves id v w₁ → Onward w w₁ → Sustains id v (f a) w₁) :
    Sustains id v (items.forM f) w := by
  induction items generalizing w with
  | nil => exact sustains_pure serves _
  | cons a rest ih =>
    apply (each a List.mem_cons_self w serves (.refl w)).bind
    intro _ w₁ serves₁ onward
    apply ih serves₁
    intro b member w₂ serves₂ onward'
    exact each b (List.mem_cons_of_mem a member) w₂ serves₂ (onward.trans onward')

/-- Pins come and go. -/
theorem Sustains.pinning {x : Run κ α} {pins : List Pin}
    (sustains : Serves id v { w with pins := pins ++ w.pins } →
      Sustains id v x { w with pins := pins ++ w.pins })
    (serves : Serves id v w) (admitted : ∀ pin ∈ pins, w.Admits pin) :
    Sustains id v (Run.pinning pins x) w := by
  intro r w' ran
  obtain ⟨inner, answer, rfl⟩ := pinning_eq_some ran
  have pinned : Serves id v { w with pins := pins ++ w.pins } :=
    serves.still (serves.intact.pin fun pin member => .inr (admitted pin member)) rfl rfl rfl
  obtain ⟨served, onward⟩ := sustains pinned r inner answer
  constructor
  · exact served.still (served.intact.unpin onward.pins) rfl rfl rfl
  · have more : HoldsOn w { w with pins := pins ++ w.pins } :=
      .of_pins rfl (fun _ member => List.mem_append_right _ member) rfl fun _ _ _ observed =>
        observed
    refine ⟨onward.names, rfl,
      ⟨⟨?_, onward.grows.holdsOn.views, onward.grows.holdsOn.observed⟩, ?_⟩⟩
    · intro pin root
      cases pin <;> simpa only [World.roots, viewAlive, onward.names] using root
    · intro d doc there
      obtain ⟨doc', there', grown, kinds⟩ := onward.grows.documents d doc there
      exact ⟨doc', there', grown, fun n isHeld => kinds n (more.held isHeld)⟩

end Combining

section Editing

open Document

variable {ref : NodeRef}

theorem sustains_edit (serves : Serves id v w) {d : DocumentId} {doc : Document (Listener κ)}
    (there : w.documents[d]? = some doc)
    {f : (NodeId → Bool) → Document (Listener κ) → Document (Listener κ)}
    (moves : List (Move (Listener κ))) (fits : FitAll (fun n => w.held ⟨d, n⟩) doc moves)
    (moved : f (fun n => w.held ⟨d, n⟩) doc = moveAll (fun n => w.held ⟨d, n⟩) doc moves) :
    Sustains id v (Run.edit d f) w := by
  intro r w' ran
  obtain ⟨-, rfl⟩ := Prod.mk.inj (Option.some.inj ran)
  obtain ⟨intact, grows⟩ := serves.intact.move there fits moved
  exact ⟨serves.still intact rfl rfl rfl, ⟨rfl, rfl, grows⟩⟩

theorem sustains_updateNode (serves : Serves id v w) (inside : w.Inside ref)
    {f : Node (Listener κ) → Node (Listener κ)} (fits : ∀ doc, (Move.write ref.node f).Fits doc) :
    Sustains id v (Run.updateNode ref f) w := by
  obtain ⟨doc, there, -⟩ := inside
  exact sustains_edit serves there [.write ref.node f] ⟨fits doc, trivial⟩ rfl

theorem sustains_setValue (serves : Serves id v w) (inside : w.Inside ref) (value : String) :
    Sustains id v (Run.setValue ref value) w := by
  obtain ⟨doc, there, -⟩ := inside
  by_cases same : (doc.node ref.node).value = value
  · apply sustains_edit serves there [] trivial
    exact if_pos same
  · apply sustains_edit serves there [.write ref.node fun n =>
      { n with value := value, mutations := { n.mutations with value := true } }]
    · exact ⟨fun _ => ⟨rfl, rfl, rfl, rfl, rfl⟩, trivial⟩
    · exact if_neg same

theorem sustains_setText (serves : Serves id v w) (inside : w.Inside ref) (text : String) :
    Sustains id v (Run.setText ref text) w := by
  obtain ⟨doc, there, inside⟩ := inside
  exact sustains_edit serves there _ (fitAll_text (serves.intact.formed _ doc there) inside text)
    (moveAll_text _ doc ref.node text).symm

theorem sustains_setHtml (serves : Serves id v w) (inside : w.Inside ref) (markup : String) :
    Sustains id v (Run.setHtml ref markup) w := by
  obtain ⟨doc, there, inside⟩ := inside
  exact sustains_edit serves there _ (fitAll_html (serves.intact.formed _ doc there) inside markup)
    (moveAll_html _ doc ref.node markup).symm

theorem sustains_listen (serves : Serves id v w) (inside : w.Inside ref) (event : String)
    (listener : Listener κ) : Sustains id v (ref.listen event listener) w :=
  sustains_updateNode serves inside fun _ _ => ⟨rfl, rfl, rfl, rfl, rfl⟩

end Editing
end Run

section Observing

variable {w w' : World κ} {s : Store (Computed κ)} {path : String} {value : Value}
  {effect : Effect κ}

/-- A binding of the view is made and registered on the way along its path, and views
may keep it. -/
theorem World.Serves.join (serves : Serves id v w) (here : w.stores[id]? = some s)
    (binds : effect.Binds v) (suits : w.Suits effect) (names : w'.names = w.names)
    (pins : w'.pins = w.pins) (documents : w'.documents = w.documents)
    (observers : w'.observers = w.observers.push { path, value, effect })
    (stores : w'.stores[id]? = some (s.track (some w.observers.size) (s.cellsAt path)))
    (views : ∀ u : ViewId, w'.views[u]? = w.views[u]? ∨ w'.views[u]? = (w.views[u]?).map fun view =>
      { view with observers := view.observers ++ [w.observers.size] }) :
    Serves id v w' ∧ Onward w w' := by
  have observed : ∀ o path effect, w.Observed o path effect → w'.Observed o path effect :=
    fun _ _ _ was => (observed_push observers).mpr (.inl was)
  have roots : ∀ pin, w'.roots pin = w.roots pin := by
    intro pin
    cases pin <;> simp only [World.roots, viewAlive, names, pins]
  have grown : ∀ (u : ViewId) view, w.views[u]? = some view → ∃ view', w'.views[u]? = some view' ∧
      view'.store = view.store ∧ view'.mount = view.mount ∧ view.observers ⊆ view'.observers := by
    intro u view found
    obtain same | more := views u
    · exact ⟨view, same.trans found, rfl, rfl, List.Subset.refl _⟩
    · rw [found, Option.map_some] at more
      exact ⟨_, more, rfl, rfl, fun o member => List.mem_append_left _ member⟩
  have intact : w'.Intact := by
    have accepts : Accepts (· = w.observers.size) w w' := by
      refine ⟨fun pin _ root => .inl (roots pin ▸ root), fun u view' found => .inl ?_⟩
      obtain same | more := views u
      · exact ⟨view', same.symm.trans found, rfl, fun o member => .inl member⟩
      · obtain ⟨view, was, rfl⟩ := Option.map_eq_some_iff.mp (more.symm.trans found)
        refine ⟨view, was, rfl, fun o member => ?_⟩
        exact (List.mem_append.mp member).imp_right List.mem_singleton.mp
    apply serves.intact.more accepts documents
    intro o path' effect' now
    obtain was | ⟨-, -, rfl⟩ := (observed_push observers).mp now
    · exact .inl ⟨Nat.ne_of_lt was.lt, was⟩
    · exact .inr suits
  constructor
  · refine ⟨?_, ?_, intact⟩
    · obtain ⟨view, found, same⟩ := serves.shows
      obtain ⟨view', found', store, -, -⟩ := grown v view found
      exact ⟨view', found', store.trans same⟩
    · obtain ⟨s', here', tree, lists⟩ := serves.store
      obtain rfl := Option.some.inj (here.symm.trans here')
      refine ⟨_, stores, (Store.SameData.track _ _ s).tree tree, ?_⟩
      refine (lists.mono fun _ _ => Watches.later observed).track tree ?_
      intro taken first
      exact ⟨path, effect, (observed_push observers).mpr (.inr ⟨rfl, rfl, rfl⟩), first, binds⟩
  · refine ⟨names, pins, .of_documents ⟨?_, ?_, observed⟩ documents⟩
    · intro pin root
      exact (roots pin).trans root
    · intro u view found
      obtain ⟨view', found', -, rest⟩ := grown u view found
      exact ⟨view', found', rest⟩

theorem sustains_observe (serves : Serves id v w) (suits : w.Suits effect) (binds : effect.Binds v)
    (path : String) : Run.Sustains id v (View.observe perform v path effect) w := by
  obtain ⟨s, here, tree, -⟩ := serves.store
  obtain ⟨view, found, rfl⟩ := serves.shows
  intro r w' ran
  unfold View.observe at ran
  rw [Run.bind_of_ok (Run.view_run found)] at ran
  have there := fun t => World.stores_withStore here t
  obtain ⟨e, failed, -⟩ | ⟨o, w₁, made, ran⟩ := Run.bind_eq_some ran
  · obtain ⟨-, rfl⟩ | ⟨value, rfl, -⟩ := observe_eq_some tree.plain here failed
    · exact ⟨serves, .refl w'⟩
    · exact serves.join here binds suits rfl rfl rfl rfl (there _) fun u => .inl rfl
  · obtain ⟨⟨_, wrong⟩, -⟩ | ⟨value, rfl, known⟩ := observe_eq_some tree.plain here made
    · cases wrong
    · obtain ⟨rfl, -⟩ := known o rfl
      obtain ⟨-, rfl⟩ := Prod.mk.inj (Option.some.inj ran)
      refine serves.join here binds suits rfl rfl rfl rfl (there _) ?_
      intro u
      by_cases here : v = u
      · exact .inr (Array.getElem?_modify.trans (if_pos here))
      · exact .inl (Array.getElem?_modify.trans (if_neg here))

end Observing

section Binding

open Run

variable {w : World κ} {ref : NodeRef}

/-- Any node with a slot suits the effect of a directive. -/
theorem suits_of_inside {effect : Effect κ} (inside : w.Inside ref)
    (target : effect.target? = some ref) (plain : ∀ v ref pieces, effect ≠ .template v ref pieces) :
    w.Suits effect := by
  constructor
  · intro other same
    obtain rfl := Option.some.inj (target.symm.trans same)
    exact inside
  · intro v other pieces same
    exact (plain v other pieces same).elim

/-- An observer is made for an effect on the node, and something is done with what it keeps. -/
theorem sustains_observed (serves : Serves id v w) (inside : w.Inside ref) (effect : Effect κ)
    (target : effect.target? = some ref) (plain : ∀ v ref pieces, effect ≠ .template v ref pieces)
    (binds : effect.Binds v) (path : String) {further : Observer κ → Run κ Unit}
    (each : ∀ observer w₁, Serves id v w₁ → w₁.Inside ref → Sustains id v (further observer) w₁) :
    Sustains id v
      (View.observe perform v path effect >>= fun o => Run.observer o >>= further) w := by
  apply (sustains_observe serves (suits_of_inside inside target plain) binds path).bind
  intro o w₁ serves₁ onward
  obtain ⟨observer, looked, -⟩ := observer_run o w₁
  apply Sustains.congr (bind_of_ok looked _)
  exact each observer w₁ serves₁ (onward.grows.inside inside)

/-- A directive makes an observer and then shows the data. -/
theorem sustains_directive (serves : Serves id v w) (inside : w.Inside ref)
    (directive : Directive) :
    Sustains id v (Binding.bind perform v ref directive) w := by
  cases directive with
  | model path =>
    apply sustains_observed serves inside (.formValue ref) rfl nofun trivial path
    intro observer w₁ serves₁ inside₁
    apply (sustains_setValue serves₁ inside₁ _).bind
    intro _ w₂ serves₂ onward
    exact sustains_listen serves₂ (onward.grows.inside inside₁) _ _
  | html path =>
    apply sustains_observed serves inside (.html ref) rfl nofun trivial path
    intro observer w₁ serves₁ inside₁
    exact sustains_setHtml serves₁ inside₁ _
  | text path =>
    apply sustains_observed serves inside (.text ref) rfl nofun trivial path
    intro observer w₁ serves₁ inside₁
    exact sustains_setText serves₁ inside₁ _
  | on event method => exact sustains_listen serves inside event _

theorem sustains_element (serves : Serves id v w) (inside : w.Inside ref) :
    Sustains id v (Binding.element perform v ref) w := by
  have ⟨doc, there, _⟩ := inside
  apply Sustains.congr (bind_of_ok (node_run there ref.node) _)
  apply sustains_forM serves
  rintro ⟨name, value⟩ - w₁ serves₁ onward
  dsimp only
  split
  · exact sustains_directive serves₁ (onward.grows.inside inside) _
  · exact sustains_pure serves₁ _

/-- The text node stays a text node while the observers of its slots are made, because
it is held. -/
theorem sustains_template (serves : Serves id v w) (inside : w.Inside ref)
    (isHeld : w.held ref = true) (isText : w.IsText ref) (pieces : List Piece) :
    Sustains id v (Binding.template perform v ref pieces) w := by
  unfold Binding.template
  refine Sustains.bind (sustains_forM serves ?_) ?_
  · intro path _ w₁ serves₁ onward
    have suits : w₁.Suits (.template v ref pieces) := by
      constructor
      · intro other same
        cases same
        exact onward.grows.inside inside
      · intro u other pieces' same
        cases same
        exact onward.grows.isText isHeld isText
    exact (sustains_observe serves₁ suits rfl path).bind fun _ w₂ serves₂ _ =>
      sustains_pure serves₂ _
  · intro _ w₁ serves₁ onward r w' ran
    obtain ⟨s, here, tree, -⟩ := serves₁.store
    obtain ⟨view, found, rfl⟩ := serves₁.shows
    rw [renderTo_run found tree.plain here] at ran
    split at ran
    · obtain ⟨-, rfl⟩ := Prod.mk.inj (Option.some.inj ran)
      exact ⟨serves₁, .refl _⟩
    · exact sustains_setText serves₁ (onward.grows.inside inside) _ r w' ran

end Binding

section Walking

open Run

variable {w : World κ} {d : DocumentId}

theorem sustains_visitAll {visit : NodeId → Run κ Unit}
    (each : ∀ (w : World κ) n, Serves id v w → w.Inside ⟨d, n⟩ → w.held ⟨d, n⟩ = true →
      Sustains id v (visit n) w) {ids : List NodeId} (serves : Serves id v w)
    (inside : ∀ n ∈ ids, w.Inside ⟨d, n⟩) : Sustains id v (View.visitAll d visit ids) w := by
  induction ids generalizing w with
  | nil => exact sustains_pure serves _
  | cons n rest ih =>
    have visited :
        Sustains id v (Run.pinning ((n :: rest).map fun n => .node ⟨d, n⟩) (visit n)) w := by
      refine Sustains.pinning (fun pinned => ?_) serves ?_
      · apply each _ n pinned (inside n List.mem_cons_self)
        exact held_pinned (List.mem_append_left _ List.mem_cons_self)
      · intro pin member
        obtain ⟨m, listed, rfl⟩ := List.mem_map.mp member
        exact inside m listed
    apply visited.bind
    intro _ w₁ serves₁ onward
    apply ih serves₁
    intro m member
    exact onward.grows.inside (inside m (List.mem_cons_of_mem n member))

/-- Below a node with a slot everything can be bound. -/
theorem sustains_bindBelow {levels : Nat} {parent : NodeId} (serves : Serves id v w)
    (inside : w.Inside ⟨d, parent⟩) :
    Sustains id v (View.bindBelow perform v d levels parent) w := by
  induction levels generalizing w parent with
  | zero =>
    intro _ _ ran
    cases ran
  | succ levels ih =>
    obtain ⟨doc, there, -⟩ := inside
    apply Sustains.congr (bind_of_ok (node_run there parent) _)
    apply sustains_visitAll _ serves
    · intro n member
      have formed := serves.intact.formed d doc there
      exact ⟨doc, there, Document.inside_of_parent ((formed.links parent n).mp member)⟩
    · intro w₁ n serves₁ inside₁ isHeld
      have ⟨doc₁, there₁, _⟩ := inside₁
      apply Sustains.congr (bind_of_ok (node_run there₁ n) _)
      cases kind : (doc₁.node n).kind with
      | element =>
        apply (sustains_element serves₁ inside₁).bind
        intro _ w₂ serves₂ onward
        exact ih serves₂ (onward.grows.inside inside₁)
      | text =>
        dsimp only
        split
        · exact sustains_template serves₁ inside₁ isHeld ⟨doc₁, there₁, kind⟩ _
        · exact sustains_pure serves₁ _
      | comment => exact sustains_pure serves₁ _
      | fragment => exact sustains_pure serves₁ _

end Walking

namespace Document

variable {ℓ : Type} {doc : Document ℓ} {held : NodeId → Bool}

theorem accepts_of_findBelow? {s : Selector} {levels : Nat} {ns : List NodeId} {m : NodeId}
    (each : ∀ n m, s.find? (doc.branchTo levels n) = some m → s.accepts (doc.node m) = true)
    (found : s.findBelow? (ns.map (doc.branchTo levels)) = some m) :
    s.accepts (doc.node m) = true := by
  induction ns with
  | nil => cases found
  | cons n rest ih =>
    rw [List.map_cons, Selector.findBelow?] at found
    cases first : s.find? (doc.branchTo levels n) with
    | some m' =>
      rw [first] at found
      cases found
      exact each n m first
    | none =>
      rw [first] at found
      exact ih found

/-- What a selector finds has been accepted. -/
theorem accepts_of_find? {s : Selector} {levels : Nat} {n m : NodeId}
    (found : s.find? (doc.branchTo levels n) = some m) : s.accepts (doc.node m) = true := by
  induction levels generalizing n m with
  | zero =>
    simp only [branchTo, Selector.find?, Selector.findBelow?] at found
    split at found
    · cases found
      assumption
    · cases found
  | succ levels ih =>
    simp only [branchTo, Selector.find?] at found
    split at found
    · cases found
      assumption
    · exact accepts_of_findBelow? (fun _ _ => ih) found

theorem inside_of_query? {n m : NodeId} {selector : String}
    (found : doc.query? n selector = some m) : m < doc.size := by
  obtain ⟨s, -, found⟩ := Option.bind_eq_some_iff.mp found
  have accepted : s.accepts (doc.node m) = true := by
    unfold branch at found
    cases levels : doc.size with
    | zero =>
      rw [levels] at found
      cases found
    | succ levels' =>
      rw [levels] at found
      exact accepts_of_findBelow? (fun _ _ => accepts_of_find?) found
  by_contra outside
  rw [node_of_outside (Nat.le_of_not_lt outside)] at accepted
  cases s <;> simp [Selector.accepts] at accepted

/-- Nodes are moved one after the other. -/
theorem fitAll_appends (formed : doc.WellFormed) {parent : NodeId} (inside : parent < doc.size)
    (children : List NodeId) : FitAll held doc (children.map (.append parent)) := by
  induction children generalizing doc with
  | nil => trivial
  | cons c rest ih =>
    refine ⟨inside, ih (formed.append inside c) ?_⟩
    exact (formed.size_append parent c).symm ▸ inside

theorem moveAll_appends (parent : NodeId) (children : List NodeId) (doc : Document ℓ) :
    moveAll held doc (children.map (.append parent)) = children.foldl (·.append parent) doc :=
  List.foldl_map

end Document

section Making

open Run

variable {w w' : World κ} {levels : Nat}

theorem set!_eq_modify {α : Type} (xs : Array α) (i : Nat) (x : α) :
    xs.set! i x = xs.modify i fun _ => x := by
  apply Array.ext_getElem?
  intro j
  rw [Array.getElem?_modify, Array.set!_eq_setIfInBounds, Array.getElem?_setIfInBounds]
  split
  · rename_i same
    subst same
    split
    · rename_i inside
      rw [Array.getElem?_eq_getElem inside, Option.map_some]
    · rename_i outside
      rw [Array.getElem?_eq_none (Nat.le_of_not_lt outside), Option.map_none]
  · rfl

/-- A new node has a slot, and none of the slots that are held has been taken for it. -/
theorem sustains_createNode {α : Type} (serves : Serves id v w) {d : DocumentId}
    {doc : Document (Listener κ)} (there : w.documents[d]? = some doc) {new : Node (Listener κ)}
    (fits : (Document.Move.alloc new).Fits doc) {f : NodeRef → Run κ α}
    (further : ∀ (w₁ : World κ) n, Serves id v w₁ → Onward w w₁ → w₁.Inside ⟨d, n⟩ →
      Sustains id v (f ⟨d, n⟩) w₁) : Sustains id v (Run.createNode d new >>= f) w := by
  let held : NodeId → Bool := fun n => w.held ⟨d, n⟩
  have documents := set!_eq_modify w.documents d (doc.alloc held new).2
  intro r w' ran
  rw [bind_of_ok (createNode_run there new), documents] at ran
  have placed : Document.FitAll held doc [.alloc new] := ⟨fits, trivial⟩
  obtain ⟨intact, grows⟩ :=
    serves.intact.move there (f := fun _ => (doc.alloc held new).2) placed rfl
  have onward :
      Onward w { w with documents := w.documents.modify d fun _ => (doc.alloc held new).2 } :=
    ⟨rfl, rfl, grows⟩
  have inside : Inside { w with documents := w.documents.modify d fun _ => (doc.alloc held new).2 }
      ⟨d, (doc.alloc held new).1⟩ := by
    refine ⟨(doc.alloc held new).2, ?_, ?_⟩
    · rw [Array.getElem?_modify, if_pos rfl, there, Option.map_some]
    · exact (Document.allocates_alloc (serves.intact.formed d doc there) held new).inside
  obtain ⟨serves', onward'⟩ :=
    further _ _ (serves.still intact rfl rfl rfl) onward inside r w' ran
  exact ⟨serves', onward.trans onward'⟩

theorem sustains_compile (serves : Serves id v w)
    (inside : ∀ view target, w.views[v]? = some view → view.mount = some target → w.Inside target) :
    Sustains id v (View.compile perform levels v) w := by
  obtain ⟨view, found, -⟩ := serves.shows
  apply Sustains.congr (bind_of_ok (view_run found) _)
  cases mount : view.mount with
  | none => exact sustains_pure serves _
  | some target =>
    have inside := inside view target found mount
    have ⟨doc, there, _⟩ := inside
    apply sustains_createNode serves there ⟨rfl, rfl, rfl⟩
    intro w₁ n serves₁ onward fragment
    have inside₁ := onward.grows.inside inside
    refine Sustains.pinning (fun serves₂ => ?_) serves₁ ?_
    · have ⟨doc₁, there₁, within⟩ := fragment
      have formed := serves₁.intact.formed _ doc₁ there₁
      apply Sustains.congr (bind_of_ok (node_run (by exact there₁) target.node) _)
      refine Sustains.bind (sustains_edit serves₂ there₁ _ (Document.fitAll_appends formed within _)
        (Document.moveAll_appends n _ doc₁).symm) ?_
      intro _ w₃ serves₃ onward₃
      have fragment₃ : w₃.Inside ⟨target.document, n⟩ := onward₃.grows.inside fragment
      apply (sustains_bindBelow serves₃ fragment₃).attempt.bind
      intro result w₄ serves₄ onward₄
      obtain ⟨doc₄, there₄, within₄⟩ :=
        onward₄.grows.inside (onward₃.grows.inside (by exact inside₁))
      have fits : Document.FitAll (fun n => w₄.held ⟨target.document, n⟩) doc₄
          [.append target.node n] := ⟨within₄, trivial⟩
      refine Sustains.bind (sustains_edit serves₄ there₄ _ fits rfl) ?_
      intro _ w₅ serves₅ _
      exact sustains_ofExcept serves₅ result
    · intro pin member
      obtain rfl := List.mem_singleton.mp member
      exact fragment

/-- A selector finds nodes with slots only. -/
theorem inside_of_findMount {point : MountPoint} {target : NodeRef}
    (found : View.findMount point w = some (.ok (some target), w))
    (inside : ∀ ref, point = .node ref → w.Inside ref) : w.Inside target := by
  cases point with
  | node ref =>
    obtain ⟨same, -⟩ := Prod.mk.inj (Option.some.inj found)
    cases same
    exact inside _ rfl
  | selector d selector =>
    obtain ⟨same, -⟩ := Prod.mk.inj (Option.some.inj found)
    obtain ⟨n, query, rfl⟩ := Option.map_eq_some_iff.mp (Except.ok.inj same)
    cases there : w.documents[d]? with
    | none =>
      rw [there] at query
      obtain ⟨s, -, none⟩ := Option.bind_eq_some_iff.mp query
      cases none
    | some doc =>
      rw [there] at query
      exact ⟨doc, there, Document.inside_of_query? query⟩

/-- The world with new data and a view of them that has no observers yet. -/
def World.opening (w : World κ) (data : Value) (methods : List (String × Method κ))
    (mount : Option NodeRef) : World κ :=
  { w with
    stores := w.stores.push (.ofValue data)
    views := w.views.push { store := w.stores.size, methods, mount }
    pins := .view w.views.size :: w.pins }

theorem serves_opening (intact : w.Intact) {data : Value} (canonical : data.Canonical)
    (methods : List (String × Method κ)) {mount : Option NodeRef}
    (mounted : ∀ target, mount = some target → w.Inside target) :
    Serves w.stores.size w.views.size (w.opening data methods mount) := by
  refine ⟨⟨_, Array.getElem?_push_size, rfl⟩, ?_, ?_⟩
  · exact ⟨_, Array.getElem?_push_size, Store.tree_ofValue canonical, Store.lists_ofValue _⟩
  · exact intact.more (accepts_making mounted rfl) rfl fun o path effect observed =>
      .inl ⟨not_false, observed⟩

/-- A view that was made is bound to its data and to nothing else, and it may be kept alive. -/
theorem create_serves {options : ViewOptions κ} (intact : w.Intact)
    (canonical : options.data.Canonical) (noComputed : options.computed = [])
    (inside : ∀ ref, options.mount = some (.node ref) → w.Inside ref)
    (made : View.create perform levels options w = some (.ok v, w')) :
    Serves w.stores.size v w' ∧ ({ w' with pins := .view v :: w'.pins } : World κ).Intact := by
  obtain ⟨mount, inner, located, unmounted, rfl, rfl, compiled⟩ := View.create_cases noComputed made
  have mounted : ∀ target, mount = some target → w.Inside target := by
    rintro target rfl
    cases chosen : options.mount with
    | none => cases unmounted chosen
    | some point =>
      apply inside_of_findMount (located point chosen)
      rintro ref rfl
      exact inside ref chosen
  have start := serves_opening intact canonical options.methods mounted
  have within : ∀ view target, (w.opening options.data options.methods mount).views[w.views.size]? =
      some view → view.mount = some target →
        (w.opening options.data options.methods mount).Inside target := by
    intro view target found mount'
    obtain rfl := Option.some.inj (Array.getElem?_push_size.symm.trans found)
    exact mounted target mount'
  obtain ⟨serves, onward⟩ := sustains_compile start within _ _ compiled
  have pins : inner.pins = .view w.views.size :: w.pins := onward.pins
  constructor
  · have fewer : HoldsOn { inner with pins := w.pins } inner := by
      refine .of_pins rfl ?_ rfl fun _ _ _ observed => observed
      intro pin member
      rw [pins]
      exact List.mem_cons_of_mem _ member
    exact serves.still (serves.intact.fewer fewer rfl) rfl rfl rfl
  · show Intact { inner with pins := .view w.views.size :: w.pins }
    rw [← pins]
    exact serves.intact

end Making
end ReactiveView
