import ReactiveView.Proofs.Session.Passage

/-! The commands of a session as passages. A command refers only to what has a name, pins that
while it runs, and answers with nothing that it was not granted, so a step of a session is a
passage as well. -/
namespace ReactiveView

open Session Run

variable {κ : Type}

namespace World

variable {w : World κ} {pins : List Pin}

theorem grants_pinning (reached : ∀ pin ∈ pins, w.Reaches pin) {w' : World κ} {entity : Entity}
    (grants : ({ w with pins := pins ++ w.pins } : World κ).Grants w' entity) :
    w.Grants { w' with pins := w.pins } entity := by
  cases entity with
  | view v =>
    exact grants.imp_right fun ⟨alive, named⟩ => ⟨viewAlive_pinning reached v ▸ alive, named⟩
  | observer o =>
    exact grants.imp_right fun ⟨alive, owned⟩ => ⟨observerAlive_pinning reached o ▸ alive, owned⟩
  | weakView v => exact grants
  | _ => trivial

end World

namespace Session

open World

variable {perform : Performer κ} {w : World κ}

/-- The run is a passage, and what it answers was granted. -/
def Replies (x : Run κ Reply) (w : World κ) : Prop :=
  ∀ r w', x w = some (r, w') → Passage w w' ∧
    ∀ reply entity, r = .ok reply → reply.entity = some entity → w.Grants w' entity

theorem replies_looking {x : Run κ Reply} (f : World κ → Reply)
    (looks : ∀ w, x w = some (.ok (f w), w))
    (granted : ∀ entity, (f w).entity = some entity → w.Grants w entity) : Replies x w := by
  intro r w' ran
  obtain ⟨rfl, rfl⟩ := Prod.mk.inj (Option.some.inj ((looks w).symm.trans ran))
  refine ⟨.refl w, ?_⟩
  rintro _ entity ⟨⟩ found
  exact granted entity found

theorem replies_after {α : Type} {x : Run κ α} {further : α → Run κ Reply} (f : World κ → α)
    (looks : ∀ w, x w = some (.ok (f w), w)) (replies : Replies (further (f w)) w) :
    Replies (x >>= further) w := by
  intro r w' ran
  rw [bind_of_ok (looks w)] at ran
  exact replies r w' ran

/-- A run that answers a reply with data or with something that anybody may refer to. -/
theorem replies_bind {α : Type} {x : Run κ α} {f : α → Reply} (keeps : Keeps Passage x)
    (granted : ∀ a entity, (f a).entity = some entity → ∀ w', w.Grants w' entity) :
    Replies (do return f (← x)) w := by
  intro r w' ran
  obtain ⟨e, failed, rfl⟩ | ⟨a, w₁, done, ran⟩ := bind_eq_some ran
  · exact ⟨keeps _ _ _ failed, nofun⟩
  · obtain ⟨rfl, rfl⟩ := Prod.mk.inj (Option.some.inj ran)
    refine ⟨keeps _ _ _ done, ?_⟩
    rintro _ entity ⟨⟩ found
    exact granted a entity found w₁

theorem replies_pinning {pins : List Pin} {x : Run κ Reply} (reached : ∀ pin ∈ pins, w.Reaches pin)
    (replies : Replies x { w with pins := pins ++ w.pins }) : Replies (Run.pinning pins x) w := by
  intro r w' ran
  obtain ⟨inner, answer, rfl⟩ := pinning_eq_some ran
  obtain ⟨passage, granted⟩ := replies r inner answer
  exact ⟨.pinned reached passage, fun reply entity ok found =>
    grants_pinning reached (granted reply entity ok found)⟩

theorem grants_nodeReply (d : DocumentId) (id : Option NodeId) :
    ∀ entity, (nodeReply d id).entity = some entity → w.Grants w entity := by
  intro entity found
  obtain ⟨n, -, rfl⟩ := Option.map_eq_some_iff.mp found
  trivial

theorem replies_document (d : DocumentId) (op : DocumentOp) : Replies (op.run d) w := by
  cases op with
  | root =>
    apply replies_looking _ (fun _ => rfl)
    rintro _ ⟨⟩
    trivial
  | element tag =>
    apply replies_bind (passage_createNode d _)
    rintro ref _ ⟨⟩ _
    trivial
  | text data =>
    apply replies_bind (passage_createNode d _)
    rintro ref _ ⟨⟩ _
    trivial
  | fragment =>
    apply replies_bind (passage_createNode d _)
    rintro ref _ ⟨⟩ _
    trivial
  | query selector => exact replies_looking _ (fun _ => rfl) (grants_nodeReply d _)
  | clearMutations => exact replies_bind (passage_edit d _) nofun
  | _ => exact replies_looking _ (fun _ => rfl) nofun

section

variable (calls : ∀ c, Keeps Passage (perform c))
include calls

theorem replies_node (ref : NodeRef) (op : NodeOp κ) : Replies (op.run perform ref) w := by
  cases op with
  | parent => exact replies_looking _ (fun _ => rfl) (grants_nodeReply _ _)
  | first => exact replies_looking _ (fun _ => rfl) (grants_nodeReply _ _)
  | child index => exact replies_looking _ (fun _ => rfl) (grants_nodeReply _ _)
  | query selector => exact replies_looking _ (fun _ => rfl) (grants_nodeReply _ _)
  | again =>
    apply replies_looking _ (fun _ => rfl)
    rintro _ ⟨⟩
    trivial
  | setAttribute name s =>
    exact replies_bind (f := fun _ => .nothing)
      (passage_edit _ fun _ doc => doc.setAttribute ref.node name s) nofun
  | setValue s => exact replies_bind (passage_setValue ref s) nofun
  | setText s => exact replies_bind (passage_setText ref s) nofun
  | setHtml markup => exact replies_bind (passage_setHtml ref markup) nofun
  | takeMutations =>
    refine replies_after _ (fun _ => rfl) (replies_bind (f := fun _ => .data _) ?_ nofun)
    exact passage_edit _ fun _ doc => doc.update ref.node fun n => { n with mutations := {} }
  | listen event actions => exact replies_bind (NodeRef.passage_listen ref event _) nofun
  | dispatch event => exact replies_bind (NodeRef.passage_dispatch calls ref event) nofun
  | input s => exact replies_bind (NodeRef.passage_input calls ref s) nofun
  | _ => exact replies_looking _ (fun _ => rfl) nofun

theorem replies_store (s : StoreId) (op : StoreOp κ) : Replies (op.run perform s) w := by
  cases op with
  | computed name spec =>
    exact replies_after _ (fun _ => rfl)
      (replies_bind (f := fun _ => .flag spec.setter.isSome) (passage_setStore s _) nofun)
  | root =>
    apply replies_looking _ (fun _ => rfl)
    rintro _ ⟨⟩
    trivial
  | assign path value => exact replies_bind (Scope.passage_assign calls _ path value) nofun
  | watch path actions =>
    intro r w' ran
    obtain ⟨e, failed, rfl⟩ | ⟨o, w₁, made, ran⟩ := bind_eq_some ran
    · exact ⟨(passage_observe calls failed).1, nofun⟩
    · obtain ⟨passage, granted⟩ := passage_observe calls made
      obtain ⟨rfl, rfl⟩ := Prod.mk.inj (Option.some.inj ran)
      refine ⟨passage, ?_⟩
      rintro _ _ ⟨⟩ ⟨⟩
      exact granted o rfl
  | _ => exact replies_looking _ (fun _ => rfl) nofun

theorem replies_property (scope : Scope) (place : Handle) (key : String) :
    Replies (property perform scope place key) w := by
  intro r w' ran
  obtain ⟨e, failed, rfl⟩ | ⟨found, w₁, read, ran⟩ := bind_eq_some ran
  · exact ⟨Scope.passage_property? calls scope place key _ _ _ failed, nofun⟩
  · refine ⟨(Scope.passage_property? calls scope place key _ _ _ read).trans ?_, ?_⟩
    · cases found <;> exact passage_pure _ _ _ _ ran
    · rintro reply entity rfl granted
      cases found with
      | none =>
        obtain ⟨same, -⟩ := Prod.mk.inj (Option.some.inj ran)
        cases same
        cases granted
      | some handle =>
        obtain ⟨same, -⟩ := Prod.mk.inj (Option.some.inj ran)
        cases same
        cases granted
        trivial

theorem replies_newView (levels : Nat) (options : ViewOptions κ) :
    Replies (newView perform levels options) w := by
  intro r w' ran
  obtain ⟨e, failed, rfl⟩ | ⟨v, w₁, made, ran⟩ := bind_eq_some ran
  · exact ⟨(View.passage_create calls failed).1, nofun⟩
  · obtain ⟨passage, granted⟩ := View.passage_create calls made
    obtain ⟨rfl, rfl⟩ := Prod.mk.inj (Option.some.inj ran)
    refine ⟨passage, ?_⟩
    rintro _ _ ⟨⟩ ⟨⟩
    exact granted v rfl

end

theorem replies_observer (o : ObserverId) (op : ObserverOp) : Replies (op.run o) w := by
  cases op with
  | _ => exact replies_looking _ (fun _ => rfl) nofun

theorem passage_rename_registry (name : String) (r : Registry) :
    Keeps (κ := κ) Passage (rename fun names => (Entity.registry r).bind name names) := by
  apply Keeps.modify
  intro w
  exact .named name (.registry r) trivial (.refl w)

theorem replies_registry (name : String) (r : Registry) (op : RegistryOp) :
    Replies (op.run name r) w := by
  cases op with
  | subscribers =>
    exact replies_after _ (fun _ => rfl)
      (replies_bind (f := fun _ => .data _) (passage_rename_registry name _) nofun)
  | _ => exact replies_looking _ (fun _ => rfl) nofun

theorem replies_depend (name : String) (r : Registry) (o : ObserverId) :
    Replies (depend name r o) w :=
  replies_bind (f := fun _ => .flag _) (passage_rename_registry name _) nofun

/-- What a view hands out are its own observers, as far as they are alive. -/
theorem replies_ownObserver {v : ViewId} (named : v ∈ w.names.views.map (·.2)) (path : String)
    (index : Nat) (store : Option String) : Replies (ownObserver v path index store) w := by
  refine replies_after _ (fun _ => rfl)
    (replies_after _ (fun _ => rfl) (replies_after _ (fun _ => rfl) ?_))
  dsimp only
  split
  · exact replies_looking (fun _ => .nothing) (fun _ => rfl) nofun
  · rename_i o listed
    split
    · rename_i own
      apply replies_looking _ (fun _ => rfl)
      rintro _ ⟨⟩
      obtain ⟨ids, listing, at_⟩ := Option.bind_eq_some_iff.mp listed
      obtain ⟨cell, -, rfl⟩ := Option.map_eq_some_iff.mp listing
      have alive : w.observerAlive o = true := (List.mem_filter.mp (List.mem_of_getElem? at_)).2
      cases found : w.views[v]? with
      | none =>
        -- A view that is not there has no observers.
        simp [found] at own
      | some view =>
        simp only [found, Option.getD_some, List.contains_iff_mem] at own
        exact .inr ⟨alive, v, named, view, found, own⟩
    · exact replies_looking (fun _ => .nothing) (fun _ => rfl) nofun

section

variable (calls : ∀ c, Keeps Passage (perform c))
include calls

theorem replies_view {v : ViewId} (named : v ∈ w.names.views.map (·.2)) (levels : Nat)
    (op : ViewOp κ) : Replies (op.run perform levels v) w := by
  cases op with
  | get path => exact replies_bind (View.passage_get calls v path) nofun
  | set path value => exact replies_bind (View.passage_write calls v path value) nofun
  | watch path actions => exact replies_bind (View.passage_observe calls v path _) nofun
  | observer path index store => exact replies_ownObserver named path index store
  | mount =>
    apply replies_looking _ (fun _ => rfl)
    intro entity found
    obtain ⟨ref, -, rfl⟩ := Option.map_eq_some_iff.mp found
    trivial
  | store =>
    apply replies_looking _ (fun _ => rfl)
    rintro _ ⟨⟩
    trivial
  | compile => exact replies_bind (View.passage_compile calls levels v) nofun
  | weak =>
    apply replies_looking (fun _ => .made (.weakView v)) (fun _ => rfl)
    rintro _ ⟨⟩
    exact named
  | _ => exact replies_looking _ (fun _ => rfl) nofun

end

/-- The run that a command comes to, wherever the names are as they were looked up and what was
looked up is pinned. -/
def Prepares (names : Names) (pins : List Pin) (prepared : Except Unbound (Run κ Reply)) : Prop :=
  ∀ x, prepared = .ok x → ∀ w : World κ, w.names = names → pins ⊆ w.pins → Replies x w

section Preparing

variable {names : Names} {pins : List Pin}

theorem prepares_ok {x : Run κ Reply}
    (replies : ∀ w : World κ, w.names = names → pins ⊆ w.pins → Replies x w) :
    Prepares names pins (.ok x) := by
  rintro _ ⟨⟩
  exact replies

theorem mem_of_find {α : Type} {field name : String} {table : List (String × α)} {a : α}
    (found : find field table name = .ok a) : (name, a) ∈ table := by
  unfold find at found
  split at found
  · rename_i looked
    cases found
    exact Store.mem_of_lookup looked
  · cases found

theorem prepares_find {α : Type} {field name : String} {table : List (String × α)}
    {f : α → Except Unbound (Run κ Reply)}
    (each : ∀ a ∈ table.map (·.2), Prepares names pins (f a)) :
    Prepares names pins (find field table name >>= f) := by
  intro x prepared
  cases found : find field table name with
  | error u =>
    rw [found] at prepared
    cases prepared
  | ok a =>
    rw [found] at prepared
    exact each a (List.mem_map_of_mem (mem_of_find found)) x prepared

/-- What was looked up is pinned for the run. -/
theorem prepares_pinning {pin : Pin} {prepared : Except Unbound (Run κ Reply)}
    (reached : ∀ w : World κ, w.names = names → w.Reaches pin)
    (inner : Prepares names (pin :: pins) prepared) :
    Prepares names pins (do return Run.pinning [pin] (← prepared)) := by
  intro x same w named pinned
  cases prepared with
  | error u => cases same
  | ok y =>
    cases same
    refine replies_pinning (fun other member => ?_)
      (inner y rfl _ named (List.cons_subset_cons pin pinned))
    obtain rfl := List.mem_singleton.mp member
    exact reached w named

theorem prepares_withNode {field name : String} {f : NodeRef → Except Unbound (Run κ Reply)}
    (each : ∀ ref, Prepares names (.node ref :: pins) (f ref)) :
    Prepares names pins (withNode names field name f) :=
  prepares_find fun ref _ => prepares_pinning (fun _ _ => trivial) (each ref)

theorem prepares_withObserver {name : String} {f : ObserverId → Except Unbound (Run κ Reply)}
    (each : ∀ o, Prepares names (.observer o :: pins) (f o)) :
    Prepares names pins (withObserver names name f) := by
  refine prepares_find fun o listed => prepares_pinning (fun w named => ?_) (each o)
  obtain ⟨entry, member, rfl⟩ := List.mem_map.mp listed
  refine observerAlive_iff.mpr (.inl ?_)
  simp only [World.roots, named, Bool.or_eq_true, List.any_eq_true]
  exact .inl ⟨entry, member, beq_self_eq_true _⟩

theorem prepares_withTracker {name : Option String}
    {f : Option ObserverId → Except Unbound (Run κ Reply)}
    (each : ∀ tracker pins, Prepares names pins (f tracker)) :
    Prepares names pins (withTracker names name f) := by
  cases name with
  | none => exact each none pins
  | some name => exact prepares_withObserver fun o => each (some o) _

theorem prepares_withView {name : String} {f : ViewId → Except Unbound (Run κ Reply)}
    (each : ∀ v ∈ names.views.map (·.2), Prepares names (.view v :: pins) (f v)) :
    Prepares names pins (withView names name f) := by
  refine prepares_find fun v listed => prepares_pinning (fun w named => ?_) (each v listed)
  obtain ⟨entry, member, rfl⟩ := List.mem_map.mp listed
  simp only [World.Reaches, viewAlive, named, Bool.or_eq_true, List.any_eq_true]
  exact .inl ⟨entry, member, beq_self_eq_true _⟩

theorem prepares_options {spec : ViewSpec κ} {f : ViewOptions κ → Run κ Reply}
    (each : ∀ options (w : World κ), Replies (f options) w) :
    Prepares names pins (spec.prepare names f) := by
  unfold ViewSpec.prepare
  split
  · apply prepares_ok
    intro w _ _ r w' ran
    obtain ⟨rfl, rfl⟩ := Prod.mk.inj (Option.some.inj ran)
    exact ⟨.refl w, nofun⟩
  · unfold withMount
    split
    · exact prepares_ok fun w _ _ => each _ w
    · exact prepares_withNode fun ref => prepares_ok fun w _ _ => each _ w
    · exact prepares_find fun d _ => prepares_ok fun w _ _ => each _ w

end Preparing

theorem replies_unbind {α : Type} (table : Names → List (String × α))
    (setTable : List (String × α) → Names → Names) (name : String)
    (fewer : let names := setTable ((table w.names).filter (·.1 != name)) w.names
      names.views ⊆ w.names.views ∧ names.weakViews ⊆ w.names.weakViews ∧
        names.observers ⊆ w.names.observers) : Replies (unbind table setTable name) w := by
  intro r w' ran
  obtain ⟨rfl, rfl⟩ := Prod.mk.inj (Option.some.inj ran)
  refine ⟨.unnamed fewer.1 fewer.2.1 fewer.2.2, ?_⟩
  rintro _ _ ⟨⟩ ⟨⟩

theorem passage_inspectOptions (options : ViewOptions κ) :
    Keeps Passage (Inspect.options options) := by
  unfold Inspect.options
  cases options.mount with
  | none => exact passage_looking _ fun _ => rfl
  | some point => cases point <;> exact passage_looking _ fun _ => rfl

theorem replies_update (calls : ∀ c, Keeps Passage (perform c)) (s : StoreId) {o : ObserverId}
    (pinned : .observer o ∈ w.pins) :
    Replies (do updateObserver perform s o; return .nothing) w := by
  intro r w' ran
  obtain ⟨e, failed, rfl⟩ | ⟨_, w₁, updated, ran⟩ := bind_eq_some ran
  · exact ⟨passage_updateObserver calls pinned failed, nofun⟩
  · obtain ⟨rfl, rfl⟩ := Prod.mk.inj (Option.some.inj ran)
    refine ⟨passage_updateObserver calls pinned updated, ?_⟩
    rintro _ _ ⟨⟩ ⟨⟩

/-- A weak name gives a view back as long as it is alive. -/
theorem replies_upgrade {v : ViewId} (listed : v ∈ w.names.weakViews.map (·.2)) :
    Replies (do return .found (if (← Run.world).viewAlive v then some (.view v) else none)) w := by
  apply replies_looking _ (fun _ => rfl)
  intro entity found
  simp only [Reply.found] at found
  split at found
  · obtain rfl := Option.some.inj found
    exact .inr ⟨‹_›, listed⟩
  · cases found

/-- Whatever a command is, it is a passage, and what it answers was granted. -/
theorem prepares_command (calls : ∀ c, Keeps Passage (perform c)) (levels : Nat) (names : Names)
    (command : Command κ) : Prepares names [] (command.prepare perform names levels) := by
  cases command with
  | ask question =>
    exact prepares_ok fun w _ _ => replies_bind (passage_ofExcept question.answer) nofun
  | newDocument =>
    refine prepares_ok fun w _ _ => replies_bind (passage_createDocument _) ?_
    rintro d _ ⟨⟩ _
    trivial
  | parseDocument markup =>
    refine prepares_ok fun w _ _ => replies_bind (passage_createDocument _) ?_
    rintro d _ ⟨⟩ _
    trivial
  | document name op =>
    exact prepares_find fun d _ => prepares_ok fun w _ _ => replies_document d op
  | node name op =>
    exact prepares_withNode fun ref => prepares_ok fun w _ _ => replies_node calls ref op
  | append name other =>
    exact prepares_withNode fun ref => prepares_withNode fun child => prepares_ok fun w _ _ =>
      replies_bind (f := fun _ => .nothing)
        (passage_edit _ fun _ doc => doc.append ref.node child.node) nofun
  | same name other =>
    exact prepares_withNode fun ref => prepares_withNode fun child => prepares_ok fun w _ _ =>
      replies_looking (fun _ => .flag _) (fun _ => rfl) nofun
  | dropNode name =>
    exact prepares_ok fun w _ _ => replies_unbind _ _ name
      ⟨List.Subset.refl _, List.Subset.refl _, List.Subset.refl _⟩
  | newStore data =>
    refine prepares_ok fun w _ _ => replies_bind (passage_createStore _) ?_
    rintro s _ ⟨⟩ _
    trivial
  | store name op =>
    exact prepares_find fun s _ => prepares_ok fun w _ _ => replies_store calls s op
  | property name handle key tracking =>
    exact prepares_find fun s _ => prepares_find fun parent _ =>
      prepares_withTracker fun tracker _ =>
      prepares_ok fun w _ _ => replies_property calls ⟨s, tracker⟩ parent key
  | setProperty name handle key value =>
    exact prepares_find fun s _ => prepares_find fun parent _ => prepares_ok fun w _ _ =>
      replies_bind (Scope.passage_set calls _ parent key value) nofun
  | valueOf name handle =>
    exact prepares_find fun s _ => prepares_find fun place _ => prepares_ok fun w _ _ =>
      replies_looking _ (fun _ => rfl) nofun
  | resolve name path tracking =>
    exact prepares_find fun s _ => prepares_withTracker fun tracker _ => prepares_ok fun w _ _ =>
      replies_bind (Scope.passage_resolve calls ⟨s, tracker⟩ path) nofun
  | inspectComputed spec =>
    exact prepares_ok fun w _ _ => replies_looking (fun _ => .text _) (fun _ => rfl) nofun
  | observer name op =>
    exact prepares_withObserver fun o => prepares_ok fun w _ _ => replies_observer o op
  | update name against =>
    exact prepares_withObserver fun o => prepares_find fun s _ => prepares_ok fun w _ pinned =>
      replies_update calls s (pinned List.mem_cons_self)
  | dropObserver name =>
    exact prepares_ok fun w _ _ => replies_unbind _ _ name
      ⟨List.Subset.refl _, List.Subset.refl _, List.filter_sublist.subset⟩
  | newRegistry =>
    refine prepares_ok fun w _ _ => replies_looking (fun _ => .made _) (fun _ => rfl) ?_
    rintro _ ⟨⟩
    trivial
  | registry name op =>
    exact prepares_find fun r _ => prepares_ok fun w _ _ => replies_registry name r op
  | depend name registered =>
    exact prepares_find fun r _ => prepares_withObserver fun o => prepares_ok fun w _ _ =>
      replies_depend name r o
  | newView spec => exact prepares_options fun options w => replies_newView calls levels options
  | inspectOptions spec =>
    exact prepares_options fun options w =>
      replies_bind (f := Reply.text) (passage_inspectOptions options) nofun
  | view name op =>
    exact prepares_withView fun v listed => prepares_ok fun w named _ =>
      replies_view calls (named ▸ listed) levels op
  | callMethod target name method event =>
    exact prepares_withNode fun ref => prepares_withView fun v _ => prepares_ok fun w _ _ =>
      replies_bind (View.passage_call calls v method ⟨event, ref⟩) nofun
  | dropView name =>
    exact prepares_ok fun w _ _ => replies_unbind _ _ name
      ⟨List.filter_sublist.subset, List.Subset.refl _, List.Subset.refl _⟩
  | upgrade name =>
    exact prepares_find fun v listed => prepares_ok fun w named _ =>
      replies_upgrade (named ▸ listed)

theorem Step.passage_run (levels : Nat) {perform : Performer Step}
    (calls : ∀ c, Keeps Passage (perform c)) (step : Step) :
    Keeps Passage (step.run levels perform) := by
  obtain ⟨name, command⟩ := step
  apply passage_of_world
  intro w r w' ran
  have prepares := prepares_command calls levels w.names command
  cases prepared : command.prepare perform w.names levels with
  | error u =>
    rw [prepared] at ran
    exact passage_pure _ _ _ _ ran
  | ok x =>
    simp only [prepared] at ran
    have replies := prepares x prepared w rfl (List.nil_subset _)
    obtain ⟨e, failed, -⟩ | ⟨reply, w₁, replied, ran⟩ := bind_eq_some ran
    · exact (replies _ _ failed).1
    · obtain ⟨passage, granted⟩ := replies _ _ replied
      cases name with
      | none => exact passage.trans (passage_pure _ _ _ _ ran)
      | some name =>
        cases found : reply.entity with
        | none =>
          simp only [found] at ran
          exact passage.trans (passage_pure _ _ _ _ ran)
        | some entity =>
          simp only [found] at ran
          obtain ⟨-, rfl⟩ := Prod.mk.inj (Option.some.inj ran)
          exact .named name entity (granted reply entity rfl found) passage

theorem Step.passage_host (levels : Nat) {perform : Performer Step}
    (calls : ∀ c, Keeps Passage (perform c)) (step : Step) :
    Keeps Passage (step.host levels perform) := by
  apply passage_bind (Step.passage_run levels calls step)
  intro answer
  cases answer with
  | ok _ => exact passage_pure _
  | error u => exact passage_ofExcept _

/-- The world after a step. -/
theorem Step.passage_answer (w : World Step) (step : Step) : Passage w (step.answer w).2 := by
  unfold Step.answer
  split
  · exact .refl w
  · rename_i result w' ran
    have calls := passage_performer Step.host fun levels perform calls step =>
      Step.passage_host levels calls step
    exact (Step.passage_run depth (calls depth) step _ _ _ ran).trans (.plain rfl rfl rfl rfl rfl)

end Session
end ReactiveView
