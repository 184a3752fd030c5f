import ReactiveView.Proofs.Document.Walking
import ReactiveView.Proofs.View.Sealing

/-! The tour of the walk through the nodes below the mount target, when no directive replaces
children. It makes an observer for each path that a node binds and installs the listeners of each
element, in the order in which the nodes are visited. What code redraws meanwhile are form values
and texts of nodes that have been visited, so every node is found as it was at the beginning. -/
namespace ReactiveView

/-- The paths that are bound at a node, in order and with repeats. -/
def Node.boundPaths {ℓ : Type} (n : Node ℓ) : List String :=
  match n.kind with
  | .element => n.models
  | .text => Template.paths (Template.ofString n.data)
  | .comment | .fragment => []

variable {κ : Type}

/-- The event that a directive has a listener for, and the listener. -/
def Directive.listener? (v : ViewId) : Directive → Option (String × Listener κ)
  | .model path => some ("input", .writeBack v path)
  | .on event method => some (event, .method v method)
  | .html _ | .text _ => none

/-- The path of a `v-model`. -/
def Directive.model? : Directive → Option String
  | .model path => some path
  | .html _ | .text _ | .on _ _ => none

/-- The listeners that a node gets, in the order of its attributes. -/
def Node.installs (v : ViewId) (n : Node (Listener κ)) : List (String × Listener κ) :=
  if n.kind = .element then n.directives.filterMap (Directive.listener? v) else []

/-- The effect of a `v-model` or a template on a node that has been opened. -/
def Effect.Marks (v : ViewId) (d : DocumentId) (opened : NodeId → Prop) (effect : Effect κ) :
    Prop :=
  ∃ n, opened n ∧ (effect = .formValue ⟨d, n⟩ ∨ ∃ pieces, effect = .template v ⟨d, n⟩ pieces)

namespace Document

variable {ℓ : Type} {doc doc' doc'' : Document ℓ} {opened opened' : NodeId → Prop}
  {log log' : List (NodeId × String × ℓ)} {n : NodeId}

/-- The listeners that a node got, according to a log of all of them. -/
def gained (log : List (NodeId × String × ℓ)) (n : NodeId) : List (String × ℓ) :=
  log.filterMap fun entry => if entry.1 = n then some entry.2 else none

theorem gained_append (log log' : List (NodeId × String × ℓ)) (n : NodeId) :
    gained (log ++ log') n = gained log n ++ gained log' n :=
  List.filterMap_append

/-- If every node is visited once, it gains what it got on its visit. -/
theorem gained_flatMap {visited : List NodeId} (once : visited.Nodup)
    (installs : NodeId → List (String × ℓ)) (n : NodeId) :
    gained (visited.flatMap fun m => (installs m).map (m, ·)) n =
      if n ∈ visited then installs n else [] := by
  induction visited with
  | nil => rfl
  | cons m rest ih =>
    obtain ⟨other, once⟩ := List.nodup_cons.mp once
    rw [List.flatMap_cons, gained_append, ih once]
    have first : gained ((installs m).map (m, ·)) n = if m = n then installs m else [] := by
      simp only [gained, List.filterMap_map]
      split <;> simp [*]
    rw [first]
    by_cases here : m = n
    · subst here
      simp [other]
    · simp [here, Ne.symm here]

/-- Form values and texts of opened nodes were written, and listeners were added. -/
structure Dresses (opened : NodeId → Prop) (log : List (NodeId × String × ℓ))
    (doc doc' : Document ℓ) :
    Prop where
  forest : SameForest doc doc'
  attributes : ∀ n, (doc'.node n).attributes = (doc.node n).attributes
  data : ∀ n, ¬ opened n → (doc'.node n).data = (doc.node n).data
  listeners : ∀ n, (doc'.node n).listeners = (doc.node n).listeners ++ gained log n

theorem Dresses.refl (doc : Document ℓ) : Dresses opened [] doc doc :=
  ⟨.refl doc, fun _ => rfl, fun _ _ => rfl, fun _ => (List.append_nil _).symm⟩

theorem Dresses.trans (first : Dresses opened log doc doc')
    (second : Dresses opened log' doc' doc'') :
    Dresses opened (log ++ log') doc doc'' where
  forest := first.forest.trans second.forest
  attributes n := (second.attributes n).trans (first.attributes n)
  data n closed := (second.data n closed).trans (first.data n closed)
  listeners n := by
    rw [second.listeners, first.listeners, gained_append, List.append_assoc]

theorem Dresses.mono (dresses : Dresses opened log doc doc') (more : ∀ n, opened n → opened' n) :
    Dresses opened' log doc doc' :=
  { dresses with data := fun n closed => dresses.data n (mt (more n) closed) }

theorem dresses_listen (x : NodeId) (event : String) (listener : ℓ) (inside : x < doc.size) :
    Dresses opened [(x, event, listener)] doc
      (doc.update x fun n => { n with listeners := n.listeners ++ [(event, listener)] }) where
  forest := (touches_listen x event listener).forest
  attributes := (touches_listen x event listener).attributes
  data n _ := by
    by_cases here : n = x
    · rw [here, node_update_self inside]
    · rw [node_update_of_ne here]
  listeners n := by
    by_cases here : n = x
    · subst here
      rw [node_update_self inside]
      simp [gained]
    · rw [node_update_of_ne here]
      simp [gained, Ne.symm here]

end Document

open Document World Run

section Drawing

variable {doc doc' : Document (Listener κ)} {v : ViewId} {d other : DocumentId}
  {opened held : NodeId → Prop}

/-- Effects that mark opened nodes write form values and texts there. -/
theorem Draws.dresses (draws : Draws (Effect.Marks v d opened) d held doc doc') :
    Dresses opened [] doc doc' := by
  cases draws with
  | @formValue n value isKind inside =>
    obtain ⟨forest, -, retains, data, -⟩ := setValue_spec inside value
    exact ⟨forest, fun n => (retains n).attributes, fun n _ => data n,
      fun n => (retains n).listeners.trans (List.append_nil _).symm⟩
  | @template _ n _ text isKind isText =>
    obtain ⟨m, isOpened, same | ⟨pieces, same⟩⟩ := isKind
    · cases same
    · cases same
      obtain ⟨forest, -, retains, -, others⟩ := setData_spec (inside_of_text isText) text
      refine ⟨forest, fun n => (retains n).attributes, fun n closed => ?_,
        fun n => (retains n).listeners.trans (List.append_nil _).symm⟩
      rw [others n fun same => closed (same ▸ isOpened)]
  | html markup isKind | text text isKind =>
    obtain ⟨m, -, same | ⟨pieces, same⟩⟩ := isKind <;> cases same

theorem Redrawn.dresses (redrawn : Redrawn (Effect.Marks v d opened) d held doc doc') :
    Dresses opened [] doc doc' := by
  induction redrawn with
  | refl => exact .refl doc
  | tail _ draws ih => exact ih.trans draws.dresses

/-- No other document is redrawn. -/
theorem Redrawn.elsewhere (redrawn : Redrawn (Effect.Marks v d opened) other held doc doc')
    (apart : other ≠ d) : doc' = doc := by
  have none : ∀ effect : Effect κ, effect.Marks v d opened →
      ∀ n, effect.target? ≠ some ⟨other, n⟩ := by
    rintro effect ⟨m, -, rfl | ⟨pieces, rfl⟩⟩ n target
    · exact apart (congrArg NodeRef.document (Option.some.inj target)).symm
    · exact apart (congrArg NodeRef.document (Option.some.inj target)).symm
  induction redrawn with
  | refl => rfl
  | tail _ draws =>
    cases draws with
    | formValue _ isKind | html _ isKind | text _ isKind | template _ isKind =>
      exact (none _ isKind _ rfl).elim

end Drawing

/-- A tour of a view: the document and the world before. -/
structure Tour (κ : Type) where
  view : ViewId
  store : StoreId
  document : DocumentId
  base : Document (Listener κ)
  before : World κ

/-- The path of an observer. -/
def World.pathOf (w : World κ) (o : ObserverId) : Option String :=
  w.observers[o]?.map (·.path)

theorem World.pathOf_eq_some {w : World κ} {o : ObserverId} {path : String} :
    w.pathOf o = some path ↔ ∃ effect, w.Observed o path effect := by
  constructor
  · intro found
    obtain ⟨⟨_, value, effect⟩, there, rfl⟩ := Option.map_eq_some_iff.mp found
    exact ⟨effect, value, there⟩
  · rintro ⟨effect, value, there⟩
    rw [pathOf, there]
    rfl

namespace Tour

variable {tour : Tour κ} {pins : List Pin} {opened opened' : List NodeId}
  {paths paths' : List String} {log : List (NodeId × String × Listener κ)} {w w' : World κ}
  {x : NodeId} {host : Nat → Performer κ → κ → Run κ Unit} {depth : Nat}

/-- How far a tour has come: the nodes that have been opened, the paths of the observers that the
view has by now, and the listeners that were installed. -/
structure Stage (tour : Tour κ) (pins : List Pin) (opened : List NodeId) (paths : List String)
    (log : List (NodeId × String × Listener κ)) (w : World κ) : Prop where
  isSealed : w.Sealed { store := tour.store } tour.view
    (Effect.Marks tour.view tour.document (· ∈ opened))
  pins : w.pins = pins
  observers : ∃ view, w.views[tour.view]? = some view ∧ view.observers.map w.pathOf = paths.map some
  document : ∃ doc, w.documents[tour.document]? = some doc ∧ Dresses (· ∈ opened) log tour.base doc
  others : ∀ d ≠ tour.document, ∀ doc, tour.before.documents[d]? = some doc →
    w.documents[d]? = some doc

theorem scoped_of_marks {opened : NodeId → Prop} (effect : Effect κ)
    (marks : effect.Marks tour.view tour.document opened) : effect.Scoped tour.store tour.view := by
  obtain ⟨n, -, rfl | ⟨pieces, rfl⟩⟩ := marks
  · trivial
  · rfl

namespace Stage

variable (stage : tour.Stage pins opened paths log w)
include stage

theorem formed : ∃ doc, w.documents[tour.document]? = some doc ∧ doc.WellFormed ∧
    Dresses (· ∈ opened) log tour.base doc := by
  obtain ⟨doc, there, dresses⟩ := stage.document
  exact ⟨doc, there, stage.isSealed.intact.formed _ doc there, dresses⟩

/-- More nodes are opened. -/
theorem widen (more : ∀ n ∈ opened, n ∈ opened') : tour.Stage pins opened' paths log w := by
  obtain ⟨doc, there, dresses⟩ := stage.document
  refine ⟨stage.isSealed.mono ?_, stage.pins, stage.observers, ⟨doc, there, dresses.mono more⟩,
    stage.others⟩
  rintro effect ⟨n, isOpened, marks⟩
  exact ⟨n, more n isOpened, marks⟩

theorem pinning {more : List Pin} (nodes : ∀ pin ∈ more, ∃ n < tour.base.size,
      pin = .node ⟨tour.document, n⟩) :
    tour.Stage (more ++ pins) opened paths log { w with pins := more ++ w.pins } := by
  obtain ⟨doc, there, dresses⟩ := stage.document
  refine ⟨stage.isSealed.pinning (fun pin member => ?_) fun ref member => ?_,
    congrArg (more ++ ·) stage.pins, stage.observers, ⟨doc, there, dresses⟩, stage.others⟩
  · obtain ⟨n, -, rfl⟩ := nodes pin member
    trivial
  · obtain ⟨n, inside, same⟩ := nodes _ member
    cases same
    exact ⟨doc, there, dresses.forest.size ▸ inside⟩

/-- Documents are redrawn at opened nodes while observers come in. -/
theorem proceed (isSealed : w'.Sealed { store := tour.store } tour.view
      (Effect.Marks tour.view tour.document (· ∈ opened)))
    (proceeds : Proceeds (Effect.Marks tour.view tour.document (· ∈ opened)) w w')
    (observers : ∃ view, w'.views[tour.view]? = some view ∧
      view.observers.map w'.pathOf = paths'.map some) : tour.Stage pins opened paths' log w' := by
  refine ⟨isSealed, proceeds.pins.trans stage.pins, observers, ?_, fun d apart doc there => ?_⟩
  · obtain ⟨doc, there, dresses⟩ := stage.document
    obtain ⟨doc', there', redrawn⟩ := proceeds.documents _ doc there
    exact ⟨doc', there', List.append_nil log ▸ dresses.trans redrawn.dresses⟩
  · obtain ⟨doc', there', redrawn⟩ := proceeds.documents d doc (stage.others d apart doc there)
    rw [there', redrawn.elsewhere apart]

/-- Observers keep their paths. -/
theorem observers_of_holdsOn (holdsOn : HoldsOn w w') : ∃ view, w.views[tour.view]? = some view ∧
    view.observers.map w'.pathOf = paths.map some := by
  obtain ⟨view, found, known⟩ := stage.observers
  refine ⟨view, found, (List.map_congr_left fun o member => ?_).trans known⟩
  have listed : w.pathOf o ∈ paths.map some := known ▸ List.mem_map_of_mem member
  obtain ⟨path, -, same⟩ := List.mem_map.mp listed
  obtain ⟨effect, observed⟩ := pathOf_eq_some.mp same.symm
  exact (pathOf_eq_some.mpr ⟨effect, holdsOn.observed o path effect observed⟩).trans same

/-- Documents are redrawn at opened nodes. -/
theorem redraw (redraws : Redraws (Effect.Marks tour.view tour.document (· ∈ opened)) w w')
    (isSealed : w'.Sealed { store := tour.store } tour.view
      (Effect.Marks tour.view tour.document (· ∈ opened))) :
    tour.Stage pins opened paths log w' := by
  obtain ⟨view, found, known⟩ := stage.observers_of_holdsOn redraws.holdsOn
  exact stage.proceed isSealed redraws.proceeds ⟨view, redraws.views ▸ found, known⟩

/-- Something is drawn at an opened node as an effect would draw it. -/
theorem edit {f : (NodeId → Bool) → Document (Listener κ) → Document (Listener κ)}
    (draws : ∀ doc, w.documents[tour.document]? = some doc →
      Dresses (· ∈ opened) log tour.base doc →
      Draws (Effect.Marks tour.view tour.document (· ∈ opened)) tour.document
        (fun n => w.held ⟨tour.document, n⟩ = true) doc
        (f (fun n => w.held ⟨tour.document, n⟩) doc))
    (ran : Run.edit tour.document f w = some (.ok (), w')) :
    tour.Stage pins opened paths log w' := by
  obtain ⟨doc, there, dresses⟩ := stage.document
  obtain ⟨isSealed, redraws⟩ := stirs_edit stage.isSealed ran fun doc' there' => by
    obtain rfl := Option.some.inj (there.symm.trans there')
    exact draws doc there dresses
  exact stage.redraw redraws isSealed

theorem inside (here : x < tour.base.size) : w.Inside ⟨tour.document, x⟩ := by
  obtain ⟨doc, there, dresses⟩ := stage.document
  exact ⟨doc, there, dresses.forest.size ▸ here⟩

/-- A listener is installed. -/
theorem listen (here : x < tour.base.size) {event : String} {listener : Listener κ}
    (ran : NodeRef.listen ⟨tour.document, x⟩ event listener w = some (.ok (), w')) :
    tour.Stage pins opened paths (log ++ [(x, event, listener)]) w' := by
  obtain ⟨-, rfl⟩ := Prod.mk.inj (Option.some.inj ran)
  obtain ⟨doc, there, dresses⟩ := stage.document
  let hears : Node (Listener κ) → Node (Listener κ) := fun n =>
    { n with listeners := n.listeners ++ [(event, listener)] }
  have fits : FitAll (fun n => w.held ⟨tour.document, n⟩) doc [.write x hears] :=
    ⟨fun _ => ⟨rfl, rfl, rfl, rfl, rfl⟩, trivial⟩
  obtain ⟨intact, -⟩ :=
    stage.isSealed.intact.move there (f := fun doc => doc.update x hears) fits rfl
  refine ⟨stage.isSealed.edited intact, stage.pins, stage.observers, ⟨doc.update x hears, ?_,
    dresses.trans (dresses_listen x event listener (dresses.forest.size ▸ here))⟩,
    fun d apart other there' => ?_⟩
  · simp only [Array.getElem?_modify, if_true, there, Option.map_some]
    rfl
  · rw [Array.getElem?_modify, if_neg apart.symm]
    exact stage.others d apart other there'

/-- A path is bound. -/
theorem observe {path : String} {effect : Effect κ} {o : ObserverId}
    (marks : effect.Marks tour.view tour.document (· ∈ opened)) (suits : w.Suits effect)
    (ran : View.observe (performer host depth) tour.view path effect w = some (.ok o, w')) :
    tour.Stage pins opened (paths ++ [path]) log w' := by
  obtain ⟨ended, proceeds, last⟩ :=
    View.observe_sealed scoped_of_marks stage.isSealed suits marks ran
  obtain ⟨observed, views⟩ := last o rfl
  obtain ⟨view, found, known⟩ := stage.observers_of_holdsOn proceeds.holdsOn
  refine stage.proceed ended proceeds ⟨{ view with observers := view.observers ++ [o] }, ?_, ?_⟩
  · rw [views, giving, Array.getElem?_modify, if_pos rfl, found, Option.map_some]
  · simp only [List.map_append, known, List.map_cons, List.map_nil]
    rw [pathOf_eq_some.mpr ⟨effect, observed⟩]

/-- A directive that leaves the children of its element alone. -/
theorem directive (isOpened : x ∈ opened) (here : x < tour.base.size) {directive : Directive}
    (keeps : ∀ path, directive ≠ .html path ∧ directive ≠ .text path)
    (ran : Binding.bind (performer host depth) tour.view ⟨tour.document, x⟩ directive w =
      some (.ok (), w')) :
    tour.Stage pins opened (paths ++ directive.model?.toList)
      (log ++ (directive.listener? tour.view).toList.map (x, ·)) w' := by
  cases directive with
  | model path =>
    have suits : w.Suits (.formValue ⟨tour.document, x⟩) :=
      suits_of_inside (stage.inside here) rfl nofun
    obtain ⟨o, w₁, observed, ran⟩ := bind_eq_ok ran
    have bound := stage.observe ⟨x, isOpened, .inl rfl⟩ suits observed
    obtain ⟨observer, looked, -⟩ := observer_run o w₁
    rw [bind_of_ok looked] at ran
    obtain ⟨_, w₂, written, ran⟩ := bind_eq_ok ran
    have shown := bound.edit (fun doc there dresses =>
      .formValue observer.value.propertyText ⟨x, isOpened, .inl rfl⟩ (dresses.forest.size ▸ here))
        written
    exact shown.listen here ran
  | on event method => exact (List.append_nil paths).symm ▸ stage.listen here ran
  | html path => exact ((keeps path).1 rfl).elim
  | text path => exact ((keeps path).2 rfl).elim

/-- Attributes are bound one after the other. -/
theorem attributes (isOpened : x ∈ opened) (here : x < tour.base.size)
    {attributes : List (String × String)} (keeps : ∀ a ∈ attributes, ∀ path,
      Directive.parse? a.1 a.2 ≠ some (.html path) ∧ Directive.parse? a.1 a.2 ≠ some (.text path))
    (ran : attributes.forM (Binding.attach (performer host depth) tour.view ⟨tour.document, x⟩) w =
      some (.ok (), w')) :
    tour.Stage pins opened (paths ++ attributes.filterMap Directive.modelPath?)
      (log ++ ((attributes.filterMap fun a => Directive.parse? a.1 a.2).filterMap
        (Directive.listener? tour.view)).map (x, ·)) w' := by
  induction attributes generalizing w paths log with
  | nil =>
    obtain ⟨-, rfl⟩ := Prod.mk.inj (Option.some.inj ran)
    simpa using stage
  | cons a rest ih =>
    obtain ⟨_, w₁, bound, ran⟩ := bind_eq_ok ran
    have later := fun a' member => keeps a' (List.mem_cons_of_mem a member)
    unfold Binding.attach at bound
    cases parsed : Directive.parse? a.1 a.2 with
    | none =>
      rw [parsed] at bound
      obtain ⟨-, rfl⟩ := Prod.mk.inj (Option.some.inj bound)
      simpa [Directive.modelPath?, parsed] using ih stage later ran
    | some directive =>
      rw [parsed] at bound
      have plain : ∀ path, directive ≠ .html path ∧ directive ≠ .text path := by
        simpa [parsed] using keeps a List.mem_cons_self
      have ended := ih (stage.directive isOpened here plain bound) later ran
      cases directive with
      | html path => exact ((plain path).1 rfl).elim
      | text path => exact ((plain path).2 rfl).elim
      | model path | on event method =>
        simpa [Directive.modelPath?, parsed, Directive.model?, Directive.listener?] using ended

/-- The slots of an opened text are bound. -/
theorem slots (isOpened : x ∈ opened) (isText : (tour.base.node x).kind = .text)
    {pieces : List Piece} {slots : List String} (ran : slots.forM (fun path => discard <|
      View.observe (performer host depth) tour.view path
        (.template tour.view ⟨tour.document, x⟩ pieces)) w = some (.ok (), w')) :
    tour.Stage pins opened (paths ++ slots) log w' := by
  induction slots generalizing w paths with
  | nil =>
    obtain ⟨-, rfl⟩ := Prod.mk.inj (Option.some.inj ran)
    simpa using stage
  | cons slot rest ih =>
    obtain ⟨_, w₁, bound, ran⟩ := bind_eq_ok ran
    obtain ⟨o, w₂, observed, same⟩ := bind_eq_ok (x := View.observe _ _ _ _) bound
    obtain ⟨-, rfl⟩ := Prod.mk.inj (Option.some.inj same)
    obtain ⟨doc, there, dresses⟩ := stage.document
    have isText' := (dresses.forest.kind x).trans isText
    have suits : w.Suits (.template tour.view ⟨tour.document, x⟩ pieces) := by
      constructor
      · intro ref same
        cases same
        exact ⟨doc, there, inside_of_text isText'⟩
      · intro u ref pieces' same
        cases same
        exact ⟨doc, there, isText'⟩
    simpa using ih (stage.observe ⟨x, isOpened, .inr ⟨pieces, rfl⟩⟩ suits observed) ran

/-- An opened text is bound and shown. -/
theorem template (isOpened : x ∈ opened) (isText : (tour.base.node x).kind = .text)
    {pieces : List Piece} (ran : Binding.template (performer host depth) tour.view
      ⟨tour.document, x⟩ pieces w = some (.ok (), w')) :
    tour.Stage pins opened (paths ++ Template.paths pieces) log w' := by
  obtain ⟨_, w₁, observed, ran⟩ := bind_eq_ok ran
  have bound := stage.slots isOpened isText observed
  obtain ⟨view, found, same⟩ := bound.isSealed.shows
  rw [bind_of_ok (view_run found), same] at ran
  obtain ⟨text, w₂, rendered, ran⟩ := bind_eq_ok ran
  have stirs : Keeps (Stirs { store := tour.store } tour.view
      (Effect.Marks tour.view tour.document (· ∈ opened)))
      (renderFrom (performer host depth) tour.store pieces) :=
    stirs_renderFrom (fun c => stirs_performer scoped_of_marks depth) pieces
  obtain ⟨isSealed, redraws⟩ := stirs w₁ _ w₂ rendered bound.isSealed
  refine (bound.redraw redraws isSealed).edit (fun doc there dresses => ?_) ran
  have isText' := (dresses.forest.kind x).trans isText
  rw [setTextContent_of_text isText']
  exact .template text ⟨x, isOpened, .inr ⟨pieces, rfl⟩⟩ isText'

end Stage

theorem Stage.unpinning {more : List Pin} (stage : tour.Stage (more ++ pins) opened paths log w) :
    tour.Stage pins opened paths log { w with pins } :=
  ⟨stage.isSealed.unpinning stage.pins, rfl, stage.observers, stage.document, stage.others⟩

/-- The paths that are bound at the nodes of a list. -/
def found (tour : Tour κ) (visited : List NodeId) : List String :=
  visited.flatMap fun n => (tour.base.node n).boundPaths

/-- The listeners that are installed at the nodes of a list. -/
def installed (tour : Tour κ) (visited : List NodeId) : List (NodeId × String × Listener κ) :=
  visited.flatMap fun n => ((tour.base.node n).installs tour.view).map (n, ·)

/-- The nodes of a list have been visited. -/
abbrev Visited (tour : Tour κ) (pins : List Pin) (visited : List NodeId) (w : World κ) : Prop :=
  tour.Stage pins visited (tour.found visited) (tour.installed visited) w

section Visiting

variable {done visited : List NodeId} {levels : Nat} {n : NodeId}

theorem Visited.append_nil (reached : tour.Visited pins done w) :
    tour.Visited pins (done ++ []) w :=
  (List.append_nil done).symm ▸ reached

/-- A node is visited as it was in the beginning. -/
theorem Visited.next (reached : tour.Visited pins done w) (n : NodeId) :
    tour.Stage pins (done ++ [n]) (tour.found done) (tour.installed done) w :=
  reached.widen fun _ member => List.mem_append_left _ member

theorem found_snoc (tour : Tour κ) (done : List NodeId) (n : NodeId) :
    tour.found (done ++ [n]) = tour.found done ++ (tour.base.node n).boundPaths := by
  simp [found]

theorem installed_snoc (tour : Tour κ) (done : List NodeId) (n : NodeId) :
    tour.installed (done ++ [n]) =
      tour.installed done ++ ((tour.base.node n).installs tour.view).map (n, ·) := by
  simp [installed]

/-- An element that keeps its children is bound. -/
theorem Visited.element (reached : tour.Visited pins done w) (here : n < tour.base.size)
    (keeps : (tour.base.node n).KeepsChildren)
    (ran : Binding.element (performer host depth) tour.view ⟨tour.document, n⟩ w =
      some (.ok (), w')) : tour.Visited pins (done ++ [n]) w' := by
  obtain ⟨doc, there, dresses⟩ := reached.document
  rw [Binding.element_eq, bind_of_ok (node_run there n), dresses.attributes] at ran
  have bound := (reached.next n).attributes (by simp) here keeps.2 ran
  rw [Visited, found_snoc, installed_snoc, Node.boundPaths, Node.installs, keeps.1, if_pos rfl]
  exact bound

/-- A node that is no element is bound, or there is nothing to bind. -/
theorem Visited.leaf (reached : tour.Visited pins done w) (fresh : n ∉ done)
    (notElement : (tour.base.node n).kind ≠ .element)
    (ran : View.visit (performer host depth) tour.view tour.document levels n w =
      some (.ok (), w')) :
    tour.Visited pins (done ++ [n]) w' := by
  obtain ⟨doc, there, dresses⟩ := reached.document
  unfold View.visit at ran
  rw [bind_of_ok (node_run there n)] at ran
  simp only [dresses.forest.kind] at ran
  have none : (tour.base.node n).installs tour.view = [] := if_neg notElement
  rw [Visited, found_snoc, installed_snoc, none, List.map_nil, List.append_nil]
  cases kind : (tour.base.node n).kind with
  | element => exact (notElement kind).elim
  | text =>
    simp only [kind] at ran
    rw [dresses.data n fresh] at ran
    simp only [Node.boundPaths, kind]
    split at ran
    · exact (reached.next n).template (by simp) kind ran
    · rename_i noSlot
      obtain ⟨-, rfl⟩ := Prod.mk.inj (Option.some.inj ran)
      have empty : Template.paths (Template.ofString (tour.base.node n).data) = [] := by
        simpa [Template.hasSlot] using noSlot
      rw [empty, List.append_nil]
      exact reached.next n
  | comment | fragment =>
    simp only [kind] at ran
    obtain ⟨-, rfl⟩ := Prod.mk.inj (Option.some.inj ran)
    simp only [Node.boundPaths, kind, List.append_nil]
    exact reached.next n

/-- Nodes are held while one of them is visited. -/
theorem Visited.holding {done' ns : List NodeId} {x : Run κ Unit}
    (reached : tour.Visited pins done w) (inside : ∀ n ∈ ns, n < tour.base.size)
    (visit : ∀ {pins} {w w' : World κ}, tour.Visited pins done w → x w = some (.ok (), w') →
      tour.Visited pins done' w')
    (ran : Run.pinning (ns.map fun n => .node ⟨tour.document, n⟩) x w = some (.ok (), w')) :
    tour.Visited pins done' w' := by
  obtain ⟨inner, visited, rfl⟩ := pinning_eq_some ran
  have nodes : ∀ pin ∈ ns.map fun n => Pin.node ⟨tour.document, n⟩, ∃ n < tour.base.size,
      pin = .node ⟨tour.document, n⟩ := by
    intro pin member
    obtain ⟨n, listed, rfl⟩ := List.mem_map.mp member
    exact ⟨n, inside n listed, rfl⟩
  have pinned := reached.pinning nodes
  have ended := (visit pinned visited).unpinning
  rwa [← reached.pins] at ended ⊢

/-- Siblings are visited one after the other, and what is below an element right after it. -/
theorem Visited.visitAll {ns : List NodeId}
    (descend : ∀ {pins done parent below} {w w' : World κ}, tour.Visited pins done w →
      Visits tour.base (tour.base.node parent).children below → (done ++ below).Nodup →
      (∀ n ∈ below, (tour.base.node n).kind = .element → (tour.base.node n).KeepsChildren) →
      View.bindBelow (performer host depth) tour.view tour.document levels parent w =
        some (.ok (), w') → tour.Visited pins (done ++ below) w')
    (reached : tour.Visited pins done w) (visits : Visits tour.base ns visited)
    (once : (done ++ visited).Nodup) (inside : ∀ n ∈ ns, n < tour.base.size)
    (keeps : ∀ n ∈ visited, (tour.base.node n).kind = .element → (tour.base.node n).KeepsChildren)
    (ran : View.visitAll tour.document
      (View.visit (performer host depth) tour.view tour.document levels)
      ns w = some (.ok (), w')) : tour.Visited pins (done ++ visited) w' := by
  induction visits generalizing done w with
  | none =>
    obtain ⟨-, rfl⟩ := Prod.mk.inj (Option.some.inj ran)
    exact reached.append_nil
  | @element n rest below later isElement visits _ _ ih =>
    obtain ⟨_, w₁, first, ran⟩ := bind_eq_ok ran
    have once' : ((done ++ [n] ++ below) ++ later).Nodup := by simpa using once
    have bound : tour.Visited pins (done ++ [n] ++ below) w₁ :=
        reached.holding inside (fun pinned answer => by
      obtain ⟨doc, there, dresses⟩ := pinned.document
      unfold View.visit at answer
      rw [bind_of_ok (node_run there n)] at answer
      simp only [dresses.forest.kind, isElement] at answer
      obtain ⟨_, w₂, attached, answer⟩ := bind_eq_ok answer
      exact descend (pinned.element (inside n List.mem_cons_self)
        (keeps n List.mem_cons_self isElement) attached) visits (List.nodup_append.mp once').1
        (fun m member => keeps m (List.mem_cons_of_mem _ (List.mem_append_left _ member))) answer)
          first
    have ended := ih bound once' (fun m member => inside m (List.mem_cons_of_mem n member))
      (fun m member => keeps m (List.mem_cons_of_mem _ (List.mem_append_right _ member))) ran
    simpa using ended
  | @other n rest later notElement _ ih =>
    obtain ⟨_, w₁, first, ran⟩ := bind_eq_ok ran
    have fresh : n ∉ done := fun member =>
      (List.nodup_append.mp once).2.2 n member n List.mem_cons_self rfl
    have bound := reached.holding inside (fun pinned => Visited.leaf pinned fresh notElement) first
    have ended := ih bound (by simpa using once)
      (fun m member => inside m (List.mem_cons_of_mem n member))
      (fun m member => keeps m (List.mem_cons_of_mem _ member)) ran
    simpa using ended

/-- Below a node the nodes are visited that a walk there visits. -/
theorem Visited.bindBelow {parent : NodeId} (reached : tour.Visited pins done w)
    (visits : Visits tour.base (tour.base.node parent).children visited)
    (once : (done ++ visited).Nodup)
    (keeps : ∀ n ∈ visited, (tour.base.node n).kind = .element → (tour.base.node n).KeepsChildren)
    (ran : View.bindBelow (performer host depth) tour.view tour.document levels parent w =
      some (.ok (), w')) : tour.Visited pins (done ++ visited) w' := by
  induction levels generalizing w w' parent pins done visited with
  | zero => cases ran
  | succ levels ih =>
    obtain ⟨doc, there, formed, dresses⟩ := reached.formed
    rw [View.bindBelow_eq, bind_of_ok (node_run there parent), dresses.forest.children] at ran
    refine Visited.visitAll ih reached visits once (fun n member => ?_) keeps ran
    rw [← dresses.forest.children] at member
    exact dresses.forest.size ▸ inside_of_parent ((formed.links parent n).mp member)

end Visiting
end Tour
end ReactiveView
