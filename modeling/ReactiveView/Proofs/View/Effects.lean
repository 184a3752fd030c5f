import ReactiveView.Proofs.View.Bindings

/-! The effects of a view on its document. Each of them brings the node that it shows up to date and
leaves what the other observers show as it was. -/
namespace ReactiveView

variable {κ : Type}

namespace Document

variable {ℓ : Type} {doc : Document ℓ} {id : NodeId}

/-- A node keeps what is not written to it. -/
theorem retains_update {write : Node ℓ → Node ℓ} (kept : ∀ n : Node ℓ, n.Retains (write n))
    (n : NodeId) : (doc.node n).Retains ((doc.update id write).node n) := by
  rw [node_update]
  split
  · rename_i both
    rw [both.1]
    exact kept _
  · exact .refl _

/-- The form value is written, and nothing else of any node. -/
theorem setValue_spec (inside : id < doc.size) (value : String) :
    SameForest doc (doc.setValue id value) ∧ ((doc.setValue id value).node id).value = value ∧
      (∀ n, (doc.node n).Retains ((doc.setValue id value).node n)) ∧
      (∀ n, ((doc.setValue id value).node n).data = (doc.node n).data) ∧
      ∀ n, n ≠ id → (doc.setValue id value).node n = doc.node n := by
  unfold setValue
  split
  · rename_i same
    exact ⟨.refl doc, same, fun _ => .refl _, fun _ => rfl, fun _ _ => rfl⟩
  · let write : Node ℓ → Node ℓ := fun n =>
      { n with value := value, mutations := { n.mutations with value := true } }
    refine ⟨sameForest_update (fun _ => rfl) (fun _ => rfl) (fun _ => rfl) fun _ => rfl, ?_,
      retains_update fun _ => ⟨rfl, rfl, rfl, fun _ parent => parent⟩,
      update_keeps (f := write) Node.data fun _ => rfl, fun n other => node_update_of_ne other _⟩
    rw [node_update_self inside]

/-- The text of character data is written, and nothing else of any node. -/
theorem setData_spec (inside : id < doc.size) (data : String) :
    SameForest doc (doc.setData id data) ∧ ((doc.setData id data).node id).data = data ∧
      (∀ n, (doc.node n).Retains ((doc.setData id data).node n)) ∧
      (∀ n, ((doc.setData id data).node n).value = (doc.node n).value) ∧
      ∀ n, n ≠ id → (doc.setData id data).node n = doc.node n := by
  unfold setData
  split
  · rename_i same
    exact ⟨.refl doc, same, fun _ => .refl _, fun _ => rfl, fun _ _ => rfl⟩
  · let write : Node ℓ → Node ℓ := fun n =>
      { n with data := data, mutations := { n.mutations with text := true } }
    refine ⟨sameForest_update (fun _ => rfl) (fun _ => rfl) (fun _ => rfl) fun _ => rfl, ?_,
      retains_update fun _ => ⟨rfl, rfl, rfl, fun _ parent => parent⟩,
      update_keeps (f := write) Node.value fun _ => rfl, fun n other => node_update_of_ne other _⟩
    rw [node_update_self inside]

theorem Renews.retains {held : NodeId → Bool} {opened fresh : NodeId → Prop} {doc' : Document ℓ}
    (renews : Renews held opened fresh doc doc') {n : NodeId} (old : ¬ fresh n) :
    (doc.node n).Retains (doc'.node n) := by
  obtain ⟨kind, attributes, -, listeners⟩ := Node.shape_inj (renews.shape n old)
  exact ⟨kind, attributes, listeners, fun p parent => (renews.parent_before n p old parent).2⟩

end Document

/-- For a dead view nothing is done, and a living one is pinned meanwhile. -/
theorem Run.whileAlive_eq_some {w w' : World κ} {v : ViewId} {x : Run κ Unit}
    {r : Except BindingError Unit} (ran : Run.whileAlive v x w = some (r, w')) :
    w.viewAlive v = false ∧ w' = w ∨ w.viewAlive v = true ∧
      ∃ inner, x { w with pins := [.view v] ++ w.pins } = some (r, inner) ∧
        w' = { inner with pins := w.pins } := by
  unfold Run.whileAlive at ran
  rw [Run.bind_of_ok (show Run.world w = some (.ok w, w) from rfl)] at ran
  split at ran
  · rename_i alive
    exact .inr ⟨alive, Run.pinning_eq_some ran⟩
  · rename_i dead
    exact .inl ⟨Bool.eq_false_iff.mpr dead, (Prod.mk.inj (Option.some.inj ran)).2.symm⟩

theorem Run.whileAlive_of_alive {w w' : World κ} {v : ViewId} {x : Run κ Unit}
    {r : Except BindingError Unit} (alive : w.viewAlive v = true)
    (ran : Run.whileAlive v x w = some (r, w')) :
    ∃ inner, x { w with pins := [.view v] ++ w.pins } = some (r, inner) ∧
      w' = { inner with pins := w.pins } := by
  obtain ⟨dead, -⟩ | ⟨-, inner⟩ := whileAlive_eq_some ran
  · cases alive.symm.trans dead
  · exact inner

/-- Rendering a template from the data of a view and writing the text to a node. -/
theorem renderTo_run {perform : Performer κ} {w : World κ} {v : ViewId} {view : View κ}
    {s : Store (Computed κ)} {ref : NodeRef} (found : w.views[v]? = some view)
    (plain : s.Plain) (here : w.stores[view.store]? = some s) (template : List Piece) :
    (do let text ← renderFrom perform (← Run.view v).store template
        Run.setText ref text : Run κ Unit) w = match s.render template with
      | .error e => some (.error e, w)
      | .ok text => Run.setText ref text w := by
  rw [Run.bind_of_ok (Run.view_run found)]
  have shown := renderFrom_run perform plain here template
  cases rendered : s.render template with
  | error e => rw [Run.bind_of_error (rendered ▸ shown)]
  | ok text => rw [Run.bind_of_ok (rendered ▸ shown)]

theorem renderTo_eq_ok {perform : Performer κ} {w w' : World κ} {v : ViewId} {view : View κ}
    {s : Store (Computed κ)} {template : List Piece} {ref : NodeRef}
    (found : w.views[v]? = some view) (plain : s.Plain) (here : w.stores[view.store]? = some s)
    (ran : (do let text ← renderFrom perform (← Run.view v).store template
               Run.setText ref text : Run κ Unit) w = some (.ok (), w')) :
    ∃ text, s.render template = .ok text ∧ Run.setText ref text w = some (.ok (), w') := by
  rw [renderTo_run found plain here] at ran
  split at ran
  · cases ran
  · rename_i text rendered
    exact ⟨text, rendered, ran⟩

namespace Bindings

open Run

variable {b : Bindings κ} {perform : Performer κ} {exempt pending : NodeId → Prop} {w w' : World κ}
  {s : Store (Computed κ)} {doc doc' : Document (Listener κ)} {o : ObserverId}

/-- Children of a node came and went, and no bound text is among them. -/
theorem Upheld.renewed (upheld : b.Upheld exempt pending w s doc) {id : NodeId}
    {f : (NodeId → Bool) → Document (Listener κ) → Document (Listener κ)}
    (same : f (fun n => w.held ⟨b.document, n⟩) doc = doc') (formed : doc'.WellFormed)
    (renewed : Document.Renewed (fun n => w.held ⟨b.document, n⟩) (· = id) doc doc')
    (sane : b.Sane perform) (apart : ∀ n t, b.texts n t → (b.node n).parent ≠ some id) :
    b.Upheld exempt pending { w with
      documents := w.documents.modify b.document (f fun n => w.held ⟨b.document, n⟩) } s doc' := by
  obtain ⟨fresh, renews⟩ := renewed
  have old : ∀ n, b.Targets n → ¬ fresh n := fun n target =>
    (renews.spared _ (upheld.guarded _) n target).1
  refine upheld.edit same formed renews.grown (fun n target => renews.retains (old n target))
    (fun n t bound => ?_) fun n path bound only => ?_
  · have target := sane.targets_text bound
    have own := renews.own n (old n target) fun _ p parent opened => by
      refine apart n t bound ?_
      rw [← opened]
      exact (upheld.nodes n target).parent p parent
    by_cases free : exempt n
    · exact .inl free
    · exact .inr (.inr ⟨free, (Node.own_inj own).2.2.2.1⟩)
  · have target := sane.targets_field bound
    by_cases free : exempt n
    · exact .inl free
    · exact .inr (.inr ⟨free, (Node.shape_inj (renews.shape n (old n target))).2.2.1⟩)

/-- The form value of a bound element is written, and is the value of its path again. -/
theorem Upheld.setValue {n : NodeId} {path : String} {new : Value}
    (upheld : b.Upheld (fun m => exempt m ∨ m = n) pending w s doc) (sane : b.Sane perform)
    (target : b.Targets n) (element : (b.node n).kind = .element) (bound : path ∈ (b.node n).models)
    (read : s.read path = .ok new) :
    b.Upheld exempt pending { w with
      documents := w.documents.modify b.document fun doc => doc.setValue n new.propertyText } s
      (doc.setValue n new.propertyText) := by
  obtain ⟨forest, value, retains, data, others⟩ :=
    Document.setValue_spec (upheld.inside n target) new.propertyText
  refine upheld.edit (f := fun _ doc => doc.setValue n new.propertyText) rfl
    (upheld.formed.sameForest forest) (Nat.le_of_eq forest.size.symm) (fun m _ => retains m)
    (fun m t text => ?_) fun m other field only => ?_
  · by_cases free : exempt m
    · exact .inl free
    · refine .inr (.inr ⟨fun either => either.elim free fun same => ?_, data m⟩)
      subst same
      cases element.symm.trans (sane.isText m t text).1
  · by_cases same : m = n
    · subst same
      rw [only, List.mem_singleton] at bound
      exact .inr (.inl ⟨new, bound ▸ read, value⟩)
    · by_cases free : exempt m
      · exact .inl free
      · exact .inr (.inr ⟨fun either => either.elim free same, by rw [others m same]⟩)

/-- A bound text is written, and is what its template comes to again. -/
theorem Upheld.setText {n : NodeId} {pieces : List Piece} {text : String}
    (upheld : b.Upheld (fun m => exempt m ∨ m = n) pending w s doc) (sane : b.Sane perform)
    (target : b.Targets n) (isText : (b.node n).kind = .text)
    (only : ∀ t, b.texts n t → t = pieces) (rendered : s.render pieces = .ok text) :
    b.Upheld exempt pending { w with
      documents := w.documents.modify b.document fun doc =>
        doc.setTextContent (fun n => w.held ⟨b.document, n⟩) n text } s (doc.setData n text) := by
  have isData : (doc.node n).isCharacterData = true := by
    simp [Node.isCharacterData, (upheld.nodes n target).kind, isText]
  obtain ⟨forest, data, retains, value, others⟩ :=
    Document.setData_spec (upheld.inside n target) text
  have rewrites : ∀ held, doc.setTextContent held n text = doc.setData n text := fun held => by
    simp only [Document.setTextContent, isData, if_true]
  refine upheld.edit (f := fun held doc => doc.setTextContent held n text) (rewrites _)
    (upheld.formed.sameForest forest) (Nat.le_of_eq forest.size.symm) (fun m _ => retains m)
    (fun m t bound => ?_) fun m path field _ => ?_
  · by_cases same : m = n
    · subst same
      rw [← only t bound] at rendered
      exact .inr (.inl (rendered.trans (congrArg Except.ok data.symm)))
    · by_cases free : exempt m
      · exact .inl free
      · exact .inr (.inr ⟨fun either => either.elim free same, by rw [others m same]⟩)
  · by_cases free : exempt m
    · exact .inl free
    · refine .inr (.inr ⟨fun either => either.elim free fun same => ?_, value m⟩)
      subst same
      cases isText.symm.trans (sane.isField m field).1

theorem shows_of_formValue {n : NodeId} (effect : b.effect o = .formValue ⟨b.document, n⟩)
    (m : NodeId) : b.Shows o m ↔ m = n := by
  simp [Shows, effect, eq_comm]

theorem shows_of_template {n : NodeId} {pieces : List Piece}
    (effect : b.effect o = .template b.view ⟨b.document, n⟩ pieces) (m : NodeId) :
    b.Shows o m ↔ m = n := by
  simp [Shows, effect, eq_comm]

/-- An effect that does not fail brings what it shows up to date. -/
theorem Upheld.fire (sane : b.Sane perform) (member : o ∈ b.made.observers) {new old : Value}
    (read : s.read (b.path o) = .ok new)
    (upheld : b.Upheld (fun n => exempt n ∨ b.Shows o n) pending w s doc)
    (ran : (b.effect o).fire perform new old w = some (.ok (), w')) :
    ∃ doc', b.Upheld exempt pending w' s doc' := by
  have ties := sane.ties o member
  have target : ∀ n, (b.effect o).target? = some ⟨b.document, n⟩ → b.Targets n :=
    fun n same => ⟨o, member, same⟩
  cases effect : b.effect o with
  | formValue ref =>
    rw [effect] at ties ran target
    cases ties with
    | formValue n element bound =>
      obtain ⟨-, rfl⟩ := Prod.mk.inj (Option.some.inj ran)
      simp only [shows_of_formValue effect] at upheld
      exact ⟨_, upheld.setValue sane (target n rfl) element bound read⟩
  | html ref =>
    have none : ∀ n, ¬ b.Shows o n := by
      rintro n (showing | ⟨t, showing⟩) <;> simp [effect] at showing
    rw [effect] at ties ran target
    cases ties with
    | html n apart =>
      obtain ⟨-, rfl⟩ := Prod.mk.inj (Option.some.inj ran)
      have inside := upheld.inside n (target n rfl)
      simp only [none, or_false] at upheld
      exact ⟨_, upheld.renewed (f := fun held doc => doc.setInnerHtml held n new.propertyText) rfl
        (upheld.formed.setInnerHtml _ inside _)
        (Document.renewed_setInnerHtml upheld.formed inside _) sane apart⟩
  | text ref =>
    have none : ∀ n, ¬ b.Shows o n := by
      rintro n (showing | ⟨t, showing⟩) <;> simp [effect] at showing
    rw [effect] at ties ran target
    cases ties with
    | text n element apart =>
      obtain ⟨-, rfl⟩ := Prod.mk.inj (Option.some.inj ran)
      have inside := upheld.inside n (target n rfl)
      have inner : (doc.node n).isCharacterData = false := by
        simp [Node.isCharacterData, (upheld.nodes n (target n rfl)).kind, element]
      simp only [none, or_false] at upheld
      exact ⟨_, upheld.renewed (f := fun held doc => doc.setTextContent held n new.propertyText) rfl
        (upheld.formed.setTextContent _ inside _)
        (Document.renewed_setTextContent upheld.formed inside inner _) sane apart⟩
  | template view ref pieces =>
    rw [effect] at ties ran target
    cases ties with
    | template n _ isText only =>
      obtain ⟨inner, rewrote, rfl⟩ := whileAlive_of_alive upheld.alive ran
      simp only [shows_of_template effect] at upheld
      have pinned := upheld.repin ([.view b.view] ++ w.pins)
      obtain ⟨text, rendered, written⟩ :=
        renderTo_eq_ok pinned.view pinned.plain pinned.here rewrote
      obtain ⟨-, rfl⟩ := Prod.mk.inj (Option.some.inj written)
      exact ⟨_, (pinned.setText sane (target n rfl) isText only rendered).repin w.pins⟩
  | code run => rw [effect] at ties; cases ties
  | viewCode view run => rw [effect] at ties; cases ties

end Bindings
end ReactiveView
