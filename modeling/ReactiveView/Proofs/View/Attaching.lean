import ReactiveView.Proofs.View.Walk

/-! Binding one node. A directive makes its observers, shows the current data, and may listen to an
event; a text makes an observer for each slot and is rendered. Nothing that is not below the node
changes its place, and what was bound stays bound. -/
namespace ReactiveView

variable {κ : Type}

namespace Document

variable {ℓ : Type} {doc doc' : Document ℓ} {x : NodeId}

/-- One node was written to; it is still of its kind, in its place, with its attributes. -/
structure Touches (x : NodeId) (doc doc' : Document ℓ) : Prop where
  forest : SameForest doc doc'
  attributes : ∀ n, (doc'.node n).attributes = (doc.node n).attributes
  others : ∀ n, n ≠ x → doc'.node n = doc.node n

theorem Touches.stays (touches : Touches x doc doc') {n : NodeId} (other : n ≠ x) :
    (doc.node n).Stays (doc'.node n) :=
  touches.others n other ▸ .refl _

theorem touches_listen (x : NodeId) (event : String) (listener : ℓ) : Touches x doc
    (doc.update x fun n => { n with listeners := n.listeners ++ [(event, listener)] }) :=
  ⟨sameForest_update (fun _ => rfl) (fun _ => rfl) (fun _ => rfl) fun _ => rfl,
    update_keeps Node.attributes fun _ => rfl, fun _ other => node_update_of_ne other _⟩

end Document

/-- Binds the directive that an attribute is, if it is one. -/
def Binding.attach (perform : Performer κ) (view : ViewId) (node : NodeRef)
    (entry : String × String) : Run κ Unit :=
  match Directive.parse? entry.1 entry.2 with
  | some directive => Binding.bind perform view node directive
  | none => return

theorem Binding.element_eq (perform : Performer κ) (view : ViewId) (node : NodeRef) :
    Binding.element perform view node =
      Run.node node >>= fun n => n.attributes.forM (Binding.attach perform view node) := rfl

namespace Site

open Document Run

variable {site : Site κ} {perform : Performer κ} {prior : Listener κ → Prop}
  {bound bound' avoided : NodeId → Prop}
  {w w' : World κ} {x : NodeId} {path : String}
  {f : (NodeId → Bool) → Document (Listener κ) → Document (Listener κ)}
  {doc' : Document (Listener κ)}

/-- The node that is bound is still the same afterwards. -/
structure Attaches (site : Site κ) (x : NodeId) (w w' : World κ) : Prop where
  advances : site.Advances (· = x) w w'
  kind : ((site.doc w').node x).kind = ((site.doc w).node x).kind
  attributes : ((site.doc w').node x).attributes = ((site.doc w).node x).attributes

theorem Attaches.refl (x : NodeId) (w : World κ) : site.Attaches x w w :=
  ⟨.refl _ _, rfl, rfl⟩

theorem Attaches.trans {w'' : World κ} (first : site.Attaches x w w')
    (second : site.Attaches x w' w'') : site.Attaches x w w'' :=
  ⟨first.advances.trans second.advances, second.kind.trans first.kind,
    second.attributes.trans first.attributes⟩

theorem Adds.attaches (adds : site.Adds w w') (x : NodeId) : site.Attaches x w w' :=
  ⟨adds.advances _, by rw [adds.doc], by rw [adds.doc]⟩

namespace Walked

variable (walked : site.Walked prior bound w)
include walked

/-- A write to one node, after which other texts may be bound. -/
theorem touch (bound' : NodeId → Prop)
    (same : f (fun n => w.held ⟨site.document, n⟩) (site.doc w) = doc')
    (touches : Touches x (site.doc w) doc')
    (listens : ∀ listener ∈ (doc'.node x).listenersOf "input",
      listener ∈ ((site.doc w).node x).listenersOf "input" ∨
        site.Heeds prior ((site.doc w).node x) listener)
    (listened : ∀ listener ∈ ((site.doc w).node x).listenersOf "input",
      listener ∈ (doc'.node x).listenersOf "input")
    (waiting : site.Text x → ¬ bound' x → (doc'.node x).data = (site.base.node x).data)
    (shown : site.Text x → bound' x → site.data.render (site.template x) = .ok (doc'.node x).data)
    (elsewhere : ∀ n, n ≠ x → (bound n ↔ bound' n))
    (slots : site.Text x → bound' x → ∀ path ∈ Template.paths (site.template x),
      site.Has w path (.template site.view ⟨site.document, x⟩ (site.template x)))
    (values : ∀ path v, ((site.doc w).node x).models = [path] → site.data.read path = .ok v →
      ((site.doc w).node x).value = v.propertyText → (doc'.node x).value = v.propertyText) :
    site.doc (w.editing site.document f) = doc' ∧
      site.Walked prior bound' (w.editing site.document f) ∧
      site.Attaches x w (w.editing site.document f) := by
  have holds := walked.holds.touch touches.forest (touches.attributes x) touches.others listens
    waiting shown elsewhere
  obtain ⟨after, walked'⟩ := walked.edit same holds (Nat.le_of_eq touches.forest.size.symm)
    (fun n _ => ⟨touches.forest.kind n, touches.attributes n⟩) fun n text isBound => by
      by_cases here : n = x
      · subst here
        exact slots text isBound
      · exact walked.slots n text ((elsewhere n here).mpr isBound)
  refine ⟨after, walked', ⟨?_, after ▸ touches.forest.kind x, after ▸ touches.attributes x⟩⟩
  refine Advances.edit after rfl rfl rfl (fun _ _ apart n isKept =>
    touches.stays fun here => apart x rfl (here ▸ isKept)) (fun n _ => ?_)
    fun n path _ only shows => ?_
  · refine ⟨touches.forest.kind n, touches.attributes n, ?_⟩
    by_cases here : n = x
    · subst here
      exact listened
    · rw [touches.others n here]
      exact fun _ listens => listens
  · obtain ⟨v, read, value⟩ := shows
    refine ⟨v, read, ?_⟩
    rw [after]
    by_cases here : n = x
    · subst here
      exact values path v only read value
    · rw [touches.others n here]
      exact value

/-- The children of an element that a directive replaces come and go. -/
theorem replace (same : f (fun n => w.held ⟨site.document, n⟩) (site.doc w) = doc')
    (formed : doc'.WellFormed)
    (renewed : Renewed (fun n => w.held ⟨site.document, n⟩) (· = x) (site.doc w) doc')
    (target : site.Targets w x) (below : Above (site.doc w) site.top x)
    (element : ((site.doc w).node x).kind = .element)
    (replaces : ¬ ((site.doc w).node x).KeepsChildren) :
    site.doc (w.editing site.document f) = doc' ∧
      site.Walked prior bound (w.editing site.document f) ∧
      site.Attaches x w (w.editing site.document f) ∧
      (∀ path, site.Shows w x path → site.Shows (w.editing site.document f) x path) := by
  obtain ⟨fresh, renews⟩ := renewed
  have shape : ∀ n, site.Targets w n → (doc'.node n).shape = ((site.doc w).node n).shape :=
    fun n target => renews.shape n
      (renews.old_of_held (walked.held_target target) (walked.target_inside target))
  have kept := fun n target => Node.shape_inj (shape n target)
  have holds := walked.holds.renewed renews formed walked.held_top walked.held_mount
    (walked.held_target target) (walked.target_inside target) below element replaces
  obtain ⟨after, walked'⟩ := walked.edit same holds renews.grown
    (fun n target => ⟨(kept n target).1, (kept n target).2.1⟩) walked.slots
  have values : ∀ n path, site.Targets w n → site.Shows w n path →
      site.Shows (w.editing site.document f) n path := by
    rintro n path target ⟨v, read, value⟩
    refine ⟨v, read, ?_⟩
    rw [after, (kept n target).2.2.1, value]
  refine ⟨after, walked', ⟨?_, after ▸ (kept x target).1, after ▸ (kept x target).2.1⟩,
    fun path => values x path target⟩
  refine Advances.edit after rfl rfl rfl
    (renews.spares walked.held_top walked.holds.inside walked.holds.topless) (fun n target => ?_)
    fun n path target _ => values n path target
  obtain ⟨kind, attributes, -, listeners⟩ := kept n target
  refine ⟨kind, attributes, ?_⟩
  simp only [Node.listenersOf, listeners]
  exact fun _ listens => listens

/-- The form value of an element is set to the value at a path that it is bound to. -/
theorem setValue (inside : x < (site.doc w).size) {v : Value} (read : site.data.read path = .ok v)
    (bound' : path ∈ ((site.doc w).node x).models)
    (element : ((site.doc w).node x).kind = .element)
    (ran : Run.setValue ⟨site.document, x⟩ v.propertyText w = some (.ok (), w')) :
    site.Walked prior bound w' ∧ site.Attaches x w w' ∧ site.Shows w' x path := by
  obtain ⟨-, rfl⟩ := Prod.mk.inj (Option.some.inj ran)
  obtain ⟨forest, value, retains, data, others⟩ :=
    Document.setValue_spec inside v.propertyText
  have notText : ¬ site.Text x := fun text => by
    cases element.symm.trans ((walked.holds.exposed x text.1).2.1.trans text.2.1)
  obtain ⟨after, walked', attaches⟩ := walked.touch bound
    (f := fun _ doc => doc.setValue x v.propertyText) rfl
    ⟨forest, fun n => (retains n).attributes, others⟩
    (fun listener listens => .inl (by rwa [Node.listenersOf, (retains x).listeners] at listens))
    (fun listener listens => by rwa [Node.listenersOf, (retains x).listeners])
    (fun text => (notText text).elim) (fun text => (notText text).elim) (fun _ _ => .rfl)
    (fun text => (notText text).elim) fun other u only read' _ => by
      rw [only, List.mem_singleton] at bound'
      obtain rfl := Except.ok.inj (read.symm.trans (bound' ▸ read'))
      exact value
  refine ⟨walked', attaches, v, read, ?_⟩
  exact (congrArg (fun doc : Document (Listener κ) => (doc.node x).value) after).trans value

/-- A node listens to an event. -/
theorem listen (inside : x < (site.doc w).size) {event : String} {listener : Listener κ}
    (heeds : site.Heeds prior ((site.doc w).node x) listener)
    (element : ((site.doc w).node x).kind = .element)
    (ran : NodeRef.listen ⟨site.document, x⟩ event listener w = some (.ok (), w')) :
    site.Walked prior bound w' ∧ site.Attaches x w w' ∧
      (∀ path, site.Shows w x path → site.Shows w' x path) ∧
      (event = "input" → listener ∈ ((site.doc w').node x).listenersOf "input") := by
  obtain ⟨-, rfl⟩ := Prod.mk.inj (Option.some.inj ran)
  let add : Node (Listener κ) → Node (Listener κ) := fun n =>
    { n with listeners := n.listeners ++ [(event, listener)] }
  have notText : ¬ site.Text x := fun text => by
    cases element.symm.trans ((walked.holds.exposed x text.1).2.1.trans text.2.1)
  have added : ∀ other, other ∈ (((site.doc w).update x add).node x).listenersOf "input" ↔
      other ∈ ((site.doc w).node x).listenersOf "input" ∨ event = "input" ∧ other = listener := by
    intro other
    rw [node_update_self inside]
    simp only [Node.listenersOf, add, List.filter_append, List.map_append, List.mem_append]
    by_cases same : event = "input" <;> simp [same]
  have value : (((site.doc w).update x add).node x).value = ((site.doc w).node x).value :=
    update_keeps (f := add) Node.value (fun _ => rfl) x
  obtain ⟨after, walked', attaches⟩ := walked.touch bound
    (f := fun _ doc => doc.update x add) rfl (touches_listen x event listener)
    (fun other listens => ((added other).mp listens).imp_right (by
      rintro ⟨-, rfl⟩
      exact heeds))
    (fun other listens => (added other).mpr (.inl listens))
    (fun text => (notText text).elim) (fun text => (notText text).elim) (fun _ _ => .rfl)
    (fun text => (notText text).elim) fun _ _ _ _ before => value.trans before
  refine ⟨walked', attaches, ?_, fun same => ?_⟩
  · rintro path ⟨v, read, before⟩
    exact ⟨v, read, (congrArg (fun doc : Document (Listener κ) => (doc.node x).value) after).trans
      (value.trans before)⟩
  · have listens := (added listener).mpr (.inr ⟨same, rfl⟩)
    rwa [← after] at listens

end Walked

/-- The node that is bound is still below the fragment. -/
theorem Attaches.below (attaches : site.Attaches x w w') (walked : site.Walked prior bound w)
    (walked' : site.Walked prior bound' w') (below : Above (site.doc w) site.top x) :
    Above (site.doc w') site.top x := by
  obtain ⟨p, parent⟩ := below.parent_eq_some
  obtain ⟨upper, -, children⟩ := attaches.advances.spares.line walked.holds.topless
    walked.holds.formed walked'.holds.formed ((below.of_parent parent).imp Eq.symm id)
    fun m same => same ▸ parent
  rcases upper with rfl | above
  · exact .parent (children x parent)
  · exact .further (children x parent) above

/-- A node on the walk that a directive is bound for. -/
structure Stands (site : Site κ) (prior : Listener κ → Prop) (bound : NodeId → Prop) (w : World κ)
    (x : NodeId) : Prop where
  walked : site.Walked prior bound w
  below : Above (site.doc w) site.top x
  element : ((site.doc w).node x).kind = .element

/-- The content of the node is the value at the path, as it is. -/
def Quotes (site : Site κ) (w : World κ) (x : NodeId) (path : String) : Prop :=
  ∃ v, site.data.read path = .ok v ∧ (site.doc w).Labelled x v.propertyText

/-- The directives among some attributes of an element are bound. -/
structure Covers (site : Site κ) (attributes : List (String × String)) (w : World κ) (x : NodeId) :
    Prop where
  linked : ∀ path ∈ attributes.filterMap Directive.modelPath?, site.Linked w x path
  shows : ∀ path, attributes.filterMap Directive.modelPath? = [path] → site.Shows w x path
  quotes : ∀ path, attributes.filterMap (fun a => Directive.parse? a.1 a.2) = [.text path] →
    site.Quotes w x path

namespace Stands

variable (stands : site.Stands prior bound w x)
include stands

theorem inside : x < (site.doc w).size := by
  obtain ⟨p, parent⟩ := stands.below.parent_eq_some
  exact inside_of_parent parent

theorem next (walked : site.Walked prior bound w') (attaches : site.Attaches x w w') :
    site.Stands prior bound w' x :=
  ⟨walked, attaches.below stands.walked walked stands.below, attaches.kind.trans stands.element⟩

theorem model (bound' : path ∈ ((site.doc w).node x).models)
    (ran : Binding.model perform site.view ⟨site.document, x⟩ path w = some (.ok (), w')) :
    site.Stands prior bound w' x ∧ site.Attaches x w w' ∧ site.Linked w' x path ∧
      site.Shows w' x path := by
  unfold Binding.model at ran
  obtain ⟨o, w₁, observed, ran⟩ := bind_eq_ok ran
  obtain ⟨walked₁, adds, has, v, read, looked⟩ := stands.walked.observe
    (.formValue x stands.element bound') (fun n same => by cases same; exact stands.inside) observed
  have stands₁ := stands.next walked₁ (adds.attaches x)
  rw [bind_of_ok looked] at ran
  obtain ⟨_, w₂, wrote, ran⟩ := bind_eq_ok ran
  obtain ⟨walked₂, attaches, shows⟩ := walked₁.setValue stands₁.inside read (adds.doc ▸ bound')
    stands₁.element wrote
  have stands₂ := stands₁.next walked₂ attaches
  have bound₂ : path ∈ ((site.doc w₂).node x).models := by
    rwa [Node.models_congr attaches.attributes, adds.doc]
  obtain ⟨walked', attaches', shows', listens⟩ := walked₂.listen stands₂.inside
    (.inr (.inl ⟨path, bound₂, rfl⟩)) stands₂.element ran
  have has' := attaches'.advances.has _ _ (attaches.advances.has _ _ has)
  exact ⟨stands₂.next walked' attaches', ((adds.attaches x).trans attaches).trans attaches',
    ⟨has', listens rfl⟩, shows' path shows⟩

/-- What replaces the children of an element leaves its form value alone. -/
theorem replace (write : String → (NodeId → Bool) → Document (Listener κ) → Document (Listener κ))
    {effect : Effect κ} (ties : site.Ties (site.doc w) path effect)
    (target : effect.target? = some ⟨site.document, x⟩)
    (replaces : ¬ ((site.doc w).node x).KeepsChildren)
    (formed : ∀ text held (doc : Document (Listener κ)), doc.WellFormed → x < doc.size →
      (write text held doc).WellFormed)
    (renewed : ∀ text held (doc : Document (Listener κ)), doc.WellFormed → x < doc.size →
      (doc.node x).isCharacterData = false → Renewed held (· = x) doc (write text held doc))
    (ran : (do
      let observer ← View.observe perform site.view path effect
      Run.edit site.document (write (← Run.observer observer).value.propertyText) : Run κ Unit) w =
        some (.ok (), w')) :
    site.Stands prior bound w' x ∧ site.Attaches x w w' ∧
      (∀ path, site.Shows w x path → site.Shows w' x path) ∧
      ∃ v held w₁, site.data.read path = .ok v ∧ site.Stands prior bound w₁ x ∧
        site.doc w' = write v.propertyText held (site.doc w₁) := by
  obtain ⟨o, w₁, observed, ran⟩ := bind_eq_ok ran
  obtain ⟨walked₁, adds, has, v, read, looked⟩ := stands.walked.observe ties (fun n same => by
    rw [target] at same
    cases same
    exact stands.inside) observed
  have stands₁ := stands.next walked₁ (adds.attaches x)
  rw [bind_of_ok looked] at ran
  obtain ⟨-, rfl⟩ := Prod.mk.inj (Option.some.inj ran)
  have inner : ((site.doc w₁).node x).isCharacterData = false := by
    simp [Node.isCharacterData, stands₁.element]
  obtain ⟨after, walked', attaches, shows⟩ := walked₁.replace (f := write v.propertyText) rfl
    (formed _ _ _ walked₁.holds.formed stands₁.inside)
    (renewed _ _ _ walked₁.holds.formed stands₁.inside inner) ⟨path, _, has, target⟩ stands₁.below
    stands₁.element (adds.doc ▸ replaces)
  refine ⟨stands₁.next walked' attaches, (adds.attaches x).trans attaches, fun path before => ?_,
    v, _, w₁, read, stands₁, after⟩
  refine shows path ?_
  unfold Shows
  rwa [adds.doc]

theorem bind {name value : String} (carries : (name, value) ∈ ((site.doc w).node x).attributes)
    {directive : Directive} (parsed : Directive.parse? name value = some directive)
    (ran : Binding.bind perform site.view ⟨site.document, x⟩ directive w = some (.ok (), w')) :
    site.Stands prior bound w' x ∧ site.Attaches x w w' ∧
      (∀ path, directive = .model path → site.Linked w' x path ∧ site.Shows w' x path) ∧
      ((∀ path, directive ≠ .model path) → ∀ path, site.Shows w x path → site.Shows w' x path) ∧
      ∀ path, directive = .text path → site.Quotes w' x path := by
  have other := stands.walked.holds.ne_target stands.below
  cases directive with
  | model path =>
    have bound' : path ∈ ((site.doc w).node x).models :=
      List.mem_filterMap.mpr ⟨(name, value), carries, by simp only [Directive.modelPath?, parsed]⟩
    obtain ⟨stands', attaches, linked, shows⟩ := stands.model bound' ran
    refine ⟨stands', attaches, fun path' same => ?_, fun never => (never path rfl).elim,
      fun path' same => ?_⟩
    · cases same
      exact ⟨linked, shows⟩
    · cases same
  | html path =>
    have replaces : ¬ ((site.doc w).node x).KeepsChildren := fun keeps =>
      (keeps.2 _ carries path).1 parsed
    obtain ⟨stands', attaches, shows, -⟩ := stands.replace
      (fun text held doc => doc.setInnerHtml held x text) (.html x other replaces) rfl
      replaces (fun text held doc formed inside => formed.setInnerHtml held inside text)
      (fun text held doc formed inside _ => renewed_setInnerHtml formed inside text) ran
    refine ⟨stands', attaches, fun path' same => ?_, fun _ => shows, fun path' same => ?_⟩
    · cases same
    · cases same
  | text path =>
    have replaces : ¬ ((site.doc w).node x).KeepsChildren := fun keeps =>
      (keeps.2 _ carries path).2 parsed
    obtain ⟨stands', attaches, shows, v, held, w₁, read, stands₁, after⟩ := stands.replace
      (fun text held doc => doc.setTextContent held x text)
      (.text x stands.element other replaces) rfl replaces
      (fun text held doc formed inside => formed.setTextContent held inside text)
      (fun text held doc formed inside inner => renewed_setTextContent formed inside inner text) ran
    refine ⟨stands', attaches, fun path' same => ?_, fun _ => shows, fun path' same => ?_⟩
    · cases same
    · cases same
      obtain ⟨p, parent⟩ := stands₁.below.parent_eq_some
      have inner : ((site.doc w₁).node x).isCharacterData = false := by
        simp [Node.isCharacterData, stands₁.element]
      have formed := stands₁.walked.holds.formed
      exact ⟨v, read, after ▸ labelled_setTextContent formed (inside_of_parent parent)
        (not_taken_of_parent formed parent) inner _⟩
  | on event method =>
    obtain ⟨walked', attaches, shows, -⟩ := stands.walked.listen stands.inside
      (.inr (.inr ⟨method, rfl⟩)) stands.element ran
    refine ⟨stands.next walked' attaches, attaches, fun path' same => ?_, fun _ => shows,
      fun path' same => ?_⟩
    · cases same
    · cases same

theorem attach {seen : List (String × String)} {entry : String × String}
    (carries : entry ∈ ((site.doc w).node x).attributes) (covers : site.Covers seen w x)
    (ran : Binding.attach perform site.view ⟨site.document, x⟩ entry w = some (.ok (), w')) :
    site.Stands prior bound w' x ∧ site.Attaches x w w' ∧ site.Covers (seen ++ [entry]) w' x := by
  obtain ⟨name, value⟩ := entry
  unfold Binding.attach at ran
  cases parsed : Directive.parse? name value with
  | none =>
    simp only [parsed] at ran
    obtain ⟨-, rfl⟩ := Prod.mk.inj (Option.some.inj ran)
    refine ⟨stands, .refl x w, ?_⟩
    have same : (seen ++ [(name, value)]).filterMap Directive.modelPath? =
        seen.filterMap Directive.modelPath? := by
      simp [Directive.modelPath?, parsed]
    have same' : (seen ++ [(name, value)]).filterMap (fun a => Directive.parse? a.1 a.2) =
        seen.filterMap fun a => Directive.parse? a.1 a.2 := by
      simp [parsed]
    exact ⟨same ▸ covers.linked, same ▸ covers.shows, same' ▸ covers.quotes⟩
  | some directive =>
    simp only [parsed] at ran
    obtain ⟨stands', attaches, newly, kept, quotes⟩ := stands.bind carries parsed ran
    refine ⟨stands', attaches, ?_⟩
    have before : ∀ path ∈ seen.filterMap Directive.modelPath?, site.Linked w' x path :=
      fun path member => attaches.advances.linked x path (covers.linked path member)
    have quotesNow : ∀ path, (seen ++ [(name, value)]).filterMap
        (fun a => Directive.parse? a.1 a.2) = [.text path] → site.Quotes w' x path := by
      intro path only
      simp only [List.filterMap_append, List.filterMap_cons, List.filterMap_nil, parsed] at only
      obtain ⟨-, here⟩ | ⟨-, never⟩ := List.append_eq_singleton_iff.mp only
      · exact quotes path (List.cons.inj here).1
      · cases never
    by_cases isModel : ∃ path, directive = .model path
    · obtain ⟨path, rfl⟩ := isModel
      obtain ⟨linked, shows⟩ := newly path rfl
      have same : (seen ++ [(name, value)]).filterMap Directive.modelPath? =
          seen.filterMap Directive.modelPath? ++ [path] := by
        simp [Directive.modelPath?, parsed]
      refine ⟨fun other member => ?_, fun other only => ?_, quotesNow⟩
      · rw [same, List.mem_append, List.mem_singleton] at member
        exact member.elim (before other) fun here => here ▸ linked
      · rw [same] at only
        obtain ⟨-, here⟩ | ⟨-, never⟩ := List.append_eq_singleton_iff.mp only
        · exact (List.cons.inj here).1 ▸ shows
        · cases never
    · have same : (seen ++ [(name, value)]).filterMap Directive.modelPath? =
          seen.filterMap Directive.modelPath? := by
        cases directive with
        | model path => exact (isModel ⟨path, rfl⟩).elim
        | _ => simp [Directive.modelPath?, parsed]
      have shows := kept fun path here => isModel ⟨path, here⟩
      exact ⟨same ▸ before, same ▸ fun path only => shows path (covers.shows path only), quotesNow⟩

theorem attachAll (seen : List (String × String)) {rest : List (String × String)}
    (all : ((site.doc w).node x).attributes = seen ++ rest) (covers : site.Covers seen w x)
    (ran : rest.forM (Binding.attach perform site.view ⟨site.document, x⟩) w = some (.ok (), w')) :
    site.Stands prior bound w' x ∧ site.Attaches x w w' ∧ site.Covers (seen ++ rest) w' x := by
  induction rest generalizing seen w with
  | nil =>
    obtain ⟨-, rfl⟩ := Prod.mk.inj (Option.some.inj ran)
    rw [List.append_nil]
    exact ⟨stands, .refl x w, covers⟩
  | cons entry rest ih =>
    obtain ⟨_, w₁, first, ran⟩ := bind_eq_ok ran
    have carries : entry ∈ ((site.doc w).node x).attributes := by
      rw [all]
      exact List.mem_append_right _ List.mem_cons_self
    obtain ⟨stands₁, attaches, covers₁⟩ := stands.attach carries covers first
    have all₁ : ((site.doc w₁).node x).attributes = (seen ++ [entry]) ++ rest := by
      rw [attaches.attributes, all, List.append_assoc, List.singleton_append]
    obtain ⟨stands', attaches', covers'⟩ := ih stands₁ (seen ++ [entry]) all₁ covers₁ ran
    rw [List.append_assoc, List.singleton_append] at covers'
    exact ⟨stands', attaches.trans attaches', covers'⟩

/-- An element is bound with all its directives. -/
theorem bindElement
    (ran : Binding.element perform site.view ⟨site.document, x⟩ w = some (.ok (), w')) :
    site.Stands prior bound w' x ∧ site.Attaches x w w' ∧
      (((site.doc w').node x).models ≠ [] → site.Bound w' x) ∧
      ∀ path, ((site.doc w').node x).directives = [.text path] → site.Quotes w' x path := by
  rw [Binding.element_eq, bind_of_ok
    (show Run.node ⟨site.document, x⟩ w = some (.ok ((site.doc w).node x), w) from rfl)] at ran
  obtain ⟨stands', attaches, covers⟩ := stands.attachAll []
    (by rw [List.nil_append]) ⟨nofun, nofun, nofun⟩ ran
  rw [List.nil_append, ← attaches.attributes] at covers
  exact ⟨stands', attaches, fun some => ⟨stands'.element, some, covers.linked, covers.shows⟩,
    covers.quotes⟩

end Stands

namespace Walked

/-- Observers for all slots of a text. -/
theorem observeAll {effect : Effect κ} (walked : site.Walked prior bound w) {paths : List String}
    (ties : ∀ path, site.Ties (site.doc w) path effect)
    (inside : ∀ n, effect.target? = some ⟨site.document, n⟩ → n < (site.doc w).size)
    (ran : paths.forM (fun path => discard <| View.observe perform site.view path effect) w =
      some (.ok (), w')) :
    site.Walked prior bound w' ∧ site.Adds w w' ∧ ∀ path ∈ paths, site.Has w' path effect := by
  induction paths generalizing w with
  | nil =>
    obtain ⟨-, rfl⟩ := Prod.mk.inj (Option.some.inj ran)
    exact ⟨walked, .refl w, nofun⟩
  | cons path rest ih =>
    obtain ⟨_, w₁, first, ran⟩ := bind_eq_ok ran
    obtain ⟨o, w₂, observed, same⟩ := bind_eq_ok (f := fun _ => pure ()) first
    obtain ⟨-, rfl⟩ := Prod.mk.inj (Option.some.inj same)
    obtain ⟨walked₁, adds, has, -⟩ := walked.observe (ties path) inside observed
    obtain ⟨walked', adds', hasRest⟩ :=
      ih walked₁ (adds.doc ▸ ties) (adds.doc ▸ inside) ran
    refine ⟨walked', adds.trans adds', fun other member => ?_⟩
    rcases List.mem_cons.mp member with rfl | member
    · exact adds'.has _ _ has
    · exact hasRest other member

/-- A text is bound with all its slots, and is rendered. -/
theorem bindText (walked : site.Walked prior bound w) (inside : x < (site.doc w).size)
    (isText : ((site.doc w).node x).kind = .text) (waits : site.Text x → ¬ bound x)
    (ran : Binding.template perform site.view ⟨site.document, x⟩
      (Template.ofString ((site.doc w).node x).data) w = some (.ok (), w')) :
    site.Walked prior (fun n => bound n ∨ n = x) w' ∧ site.Attaches x w w' ∧
      site.data.render (Template.ofString ((site.doc w).node x).data) =
        .ok ((site.doc w').node x).data := by
  have own : site.Text x → Template.ofString ((site.doc w).node x).data = site.template x :=
    fun text => congrArg Template.ofString (walked.holds.waiting x text (waits text))
  unfold Binding.template at ran
  obtain ⟨_, w₁, observed, ran⟩ := bind_eq_ok ran
  obtain ⟨walked₁, adds, has⟩ := walked.observeAll
    (fun path => .template x (Template.ofString ((site.doc w).node x).data) isText own)
    (fun n same => by cases same; exact inside) observed
  have store : w₁.stores[(site.made w₁).store]? = some (site.cells w₁) :=
    walked₁.store.symm ▸ walked₁.here
  rw [bind_of_ok (show Run.view site.view w₁ = some (.ok (site.made w₁), w₁) from rfl)] at ran
  obtain ⟨text, w₂, rendered, ran⟩ := bind_eq_ok ran
  rw [renderFrom_run perform (walked₁.same.plain walked₁.plain) store,
    walked₁.same.render] at rendered
  obtain ⟨comesTo, rfl⟩ := Prod.mk.inj (Option.some.inj rendered)
  obtain ⟨-, rfl⟩ := Prod.mk.inj (Option.some.inj ran)
  have inside₁ : x < (site.doc w₁).size := adds.doc ▸ inside
  have isData : ((site.doc w₁).node x).isCharacterData = true := by
    simp [Node.isCharacterData, adds.doc, isText]
  obtain ⟨forest, data, retains, value, others⟩ := Document.setData_spec inside₁ text
  have rewrites : ∀ held, (site.doc w₁).setTextContent held x text = (site.doc w₁).setData x text :=
    fun held => by simp only [Document.setTextContent, isData, if_true]
  obtain ⟨after, walked', attaches⟩ := walked₁.touch (fun n => bound n ∨ n = x)
    (f := fun held doc => doc.setTextContent held x text) (rewrites _)
    ⟨forest, fun n => (retains n).attributes, others⟩
    (fun listener listens => .inl (by rwa [Node.listenersOf, (retains x).listeners] at listens))
    (fun listener listens => by rwa [Node.listenersOf, (retains x).listeners])
    (fun _ never => (never (.inr rfl)).elim)
    (fun isBound _ => by rw [← own isBound, comesTo, data])
    (fun n other => by simp only [other, or_false])
    (fun isBound _ path slot => own isBound ▸ has path (own isBound ▸ slot))
    fun _ _ _ _ before => (value x).trans before
  have shown := (congrArg (fun doc : Document (Listener κ) => (doc.node x).data) after).trans data
  exact ⟨walked', (adds.attaches x).trans attaches, comesTo.trans (congrArg Except.ok shown.symm)⟩

end Walked
end Site
end ReactiveView
