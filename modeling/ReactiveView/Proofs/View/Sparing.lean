import ReactiveView.Proofs.View.Sealing

/-! Nodes that the walk spares. A walk that meets neither a spared node nor one that has a spared
node below it writes to no spared node, and neither do the effects that it sets up, however often
they run. So the spared nodes keep their children, and nothing comes to be above them. -/
namespace ReactiveView

variable {κ : Type} {id : StoreId} {v : ViewId} {d : DocumentId} {spared : NodeId → Prop}

/-- An effect that keeps to the store and writes to no spared node. -/
def Effect.Sparing (id : StoreId) (v : ViewId) (d : DocumentId) (spared : NodeId → Prop)
    (effect : Effect κ) : Prop :=
  effect.Scoped id v ∧ ∀ n, spared n → effect.target? ≠ some ⟨d, n⟩

namespace Document

variable {ℓ : Type} {doc doc' : Document ℓ} {held opened : NodeId → Prop} {x c : NodeId}

/-- The node is not spared, and there is no spared node below it. -/
def Clear (spared : NodeId → Prop) (doc : Document ℓ) (x : NodeId) : Prop :=
  ∀ n, spared n → n ≠ x ∧ ¬ Above doc x n

theorem Clear.child (clear : Clear spared doc x) (parent : (doc.node c).parent = some x) :
    Clear spared doc c := by
  refine fun n isSpared => ⟨?_, fun above => (clear n isSpared).2 (.trans (.parent parent) above)⟩
  rintro rfl
  exact (clear n isSpared).2 (.parent parent)

theorem Settles.clear (settles : Settles held opened doc doc') (isHeld : ∀ n, spared n → held n)
    (clear : Clear spared doc x) : Clear spared doc' x := fun n isSpared =>
  ⟨(clear n isSpared).1, fun above =>
    (clear n isSpared).2 (settles.above x n (isHeld n isSpared) above)⟩

end Document

open Document

namespace World

variable {w w' w'' : World κ} {x : NodeId}

/-- A sealed world that holds the spared nodes, and none of whose effects writes to them. -/
structure Guards (id : StoreId) (v : ViewId) (d : DocumentId) (spared : NodeId → Prop)
    (w : World κ) :
    Prop where
  isSealed : w.Sealed { store := id } v (Effect.Sparing id v d spared)
  held : ∀ n, spared n → w.held ⟨d, n⟩ = true

/-- Whatever is held settles in its document, and spared nodes keep their children. -/
structure Spares (d : DocumentId) (spared : NodeId → Prop) (w w' : World κ) : Prop where
  names : w'.names = w.names
  pins : w'.pins = w.pins
  holdsOn : HoldsOn w w'
  documents : ∀ doc, w.documents[d]? = some doc → ∃ doc', w'.documents[d]? = some doc' ∧
    Settles (fun n => w.held ⟨d, n⟩ = true) (fun n => ¬ spared n) doc doc'

/-- The node may be walked: it is there, and clear of spared nodes. -/
def Walkable (d : DocumentId) (spared : NodeId → Prop) (w : World κ) (x : NodeId) : Prop :=
  ∃ doc, w.documents[d]? = some doc ∧ x < doc.size ∧ Clear spared doc x

theorem Walkable.inside (walkable : w.Walkable d spared x) : w.Inside ⟨d, x⟩ :=
  have ⟨doc, there, inside, _⟩ := walkable
  ⟨doc, there, inside⟩

/-- What is written to a node that may be walked is written to no spared node. -/
theorem Walkable.sparing (walkable : w.Walkable d spared x) (effect : Effect κ)
    (within : effect.Scoped id v) (target : effect.target? = some ⟨d, x⟩) :
    effect.Sparing id v d spared := by
  obtain ⟨_, _, _, clear⟩ := walkable
  refine ⟨within, fun n isSpared same => (clear n isSpared).1 ?_⟩
  exact congrArg NodeRef.node (Option.some.inj (same.symm.trans target))

namespace Spares

theorem refl (guards : w.Guards id v d spared) : Spares d spared w w :=
  ⟨rfl, rfl, .refl w, fun doc there => ⟨doc, there, .refl (guards.isSealed.formed there)⟩⟩

theorem trans (first : Spares d spared w w') (second : Spares d spared w' w'') :
    Spares d spared w w'' where
  names := second.names.trans first.names
  pins := second.pins.trans first.pins
  holdsOn := first.holdsOn.trans second.holdsOn
  documents doc there := by
    obtain ⟨doc', there', settles⟩ := first.documents doc there
    obtain ⟨doc'', there'', settles'⟩ := second.documents doc' there'
    exact ⟨doc'', there'', settles.trans (settles'.mono (fun _ => first.holdsOn.held) fun _ => id)⟩

variable (spares : Spares d spared w w')
include spares

theorem walkable (guards : w.Guards id v d spared) (walkable : w.Walkable d spared x) :
    w'.Walkable d spared x := by
  obtain ⟨doc, there, inside, clear⟩ := walkable
  obtain ⟨doc', there', settles⟩ := spares.documents doc there
  exact ⟨doc', there', Nat.lt_of_lt_of_le inside settles.grown, settles.clear guards.held clear⟩

theorem isText (isHeld : w.held ⟨d, x⟩ = true) (isText : w.IsText ⟨d, x⟩) : w'.IsText ⟨d, x⟩ := by
  obtain ⟨doc, there, kind⟩ := isText
  obtain ⟨doc', there', settles⟩ := spares.documents doc there
  exact ⟨doc', there', (settles.kind x isHeld).trans kind⟩

theorem guards (guards : w.Guards id v d spared)
    (isSealed : w'.Sealed { store := id } v (Effect.Sparing id v d spared)) :
    w'.Guards id v d spared :=
  ⟨isSealed, fun n isSpared => spares.holdsOn.held (guards.held n isSpared)⟩

end Spares

/-- Effects of guarded worlds open nodes that are not spared. -/
theorem not_spared_of_targeted {n : NodeId}
    (targeted : Targeted (κ := κ) (Effect.Sparing id v d spared) d n) : ¬ spared n := by
  obtain ⟨effect, ⟨-, others⟩, target⟩ := targeted
  exact fun isSpared => others n isSpared target

theorem Proceeds.spares (guards : w.Guards id v d spared)
    (proceeds : Proceeds (Effect.Sparing id v d spared) w w') : Spares d spared w w' := by
  refine ⟨proceeds.names, proceeds.pins, proceeds.holdsOn, fun doc there => ?_⟩
  obtain ⟨doc', there', redrawn⟩ := proceeds.documents d doc there
  have inside : ∀ n, w.held ⟨d, n⟩ = true → n < doc.size := by
    intro n isHeld
    obtain ⟨_, there₀, inside⟩ := guards.isSealed.intact.inside ⟨d, n⟩ isHeld
    exact Option.some.inj (there₀.symm.trans there) ▸ inside
  exact ⟨doc', there',
    (redrawn.settles (guards.isSealed.formed there) inside).mono (fun _ isHeld => isHeld)
    fun _ => not_spared_of_targeted⟩

end World

open World

/-- Whatever comes of the run, the world is guarded afterwards and nothing happened to
spared nodes. -/
def Run.Minds {α : Type} (id : StoreId) (v : ViewId) (d : DocumentId) (spared : NodeId → Prop)
    (x : Run κ α) (w : World κ) : Prop :=
  ∀ r w', x w = some (r, w') → w'.Guards id v d spared ∧ Spares d spared w w'

namespace Run

variable {α β : Type} {w : World κ}

section Combining

theorem Minds.congr {x y : Run κ α} (same : x w = y w) (minds : Minds id v d spared y w) :
    Minds id v d spared x w := by
  intro r w' ran
  exact minds r w' (same ▸ ran)

theorem minds_ofExcept (guards : w.Guards id v d spared) (r : Except BindingError α) :
    Minds id v d spared (Run.ofExcept r) w := by
  intro _ w' ran
  obtain ⟨-, rfl⟩ := Prod.mk.inj (Option.some.inj ran)
  exact ⟨guards, .refl guards⟩

theorem minds_pure (guards : w.Guards id v d spared) (a : α) :
    Minds id v d spared (Pure.pure a) w :=
  minds_ofExcept guards (.ok a)

theorem Minds.bind {x : Run κ α} {f : α → Run κ β} (first : Minds id v d spared x w)
    (further : ∀ a w₁, w₁.Guards id v d spared → Spares d spared w w₁ →
      Minds id v d spared (f a) w₁) : Minds id v d spared (x >>= f) w := by
  intro r w' ran
  obtain ⟨e, failed, -⟩ | ⟨a, w₁, done, rest⟩ := bind_eq_some ran
  · exact first _ _ failed
  · obtain ⟨guards, spares⟩ := first _ _ done
    obtain ⟨guards', spares'⟩ := further a w₁ guards spares r w' rest
    exact ⟨guards', spares.trans spares'⟩

theorem minds_forM {items : List α} {f : α → Run κ PUnit} (guards : w.Guards id v d spared)
    (each : ∀ a ∈ items, ∀ w₁, w₁.Guards id v d spared → Spares d spared w w₁ →
      Minds id v d spared (f a) w₁) : Minds id v d spared (items.forM f) w := by
  induction items generalizing w with
  | nil => exact minds_pure guards _
  | cons a rest ih =>
    apply (each a List.mem_cons_self w guards (.refl guards)).bind
    intro _ w₁ guards₁ spares
    apply ih guards₁
    intro b member w₂ guards₂ spares'
    exact each b (List.mem_cons_of_mem a member) w₂ guards₂ (spares.trans spares')

/-- Nodes are pinned for a while. -/
theorem Minds.pinning {x : Run κ α} {pins : List Pin}
    (minds : ({ w with pins := pins ++ w.pins } : World κ).Guards id v d spared →
      Minds id v d spared x { w with pins := pins ++ w.pins })
    (guards : w.Guards id v d spared) (reached : ∀ pin ∈ pins, w.Reaches pin)
    (nodes : ∀ ref, .node ref ∈ pins → w.Inside ref) :
    Minds id v d spared (Run.pinning pins x) w := by
  have more : HoldsOn w { w with pins := pins ++ w.pins } :=
    .of_pins rfl (fun _ member => List.mem_append_right _ member) rfl fun _ _ _ observed => observed
  intro r w' ran
  obtain ⟨inner, answer, rfl⟩ := pinning_eq_some ran
  obtain ⟨guarded, spares⟩ := minds ⟨guards.isSealed.pinning reached nodes,
    fun n isSpared => more.held (guards.held n isSpared)⟩ r inner answer
  have holdsOn : HoldsOn w { inner with pins := w.pins } := by
    refine ⟨fun pin root => ?_, spares.holdsOn.views, spares.holdsOn.observed⟩
    cases pin <;> simpa only [World.roots, viewAlive, spares.names] using root
  have ended : Spares d spared w { inner with pins := w.pins } := by
    refine ⟨spares.names, rfl, holdsOn, fun doc there => ?_⟩
    obtain ⟨doc', there', settles⟩ := spares.documents doc there
    exact ⟨doc', there', settles.mono (fun _ => more.held) fun _ closed => closed⟩
  exact ⟨ended.guards guards (guarded.isSealed.unpinning spares.pins), ended⟩

/-- Code that keeps to the store does nothing to spared nodes. -/
theorem minds_of_stirs {x : Run κ α}
    (stirs : Keeps (Stirs { store := id } v (Effect.Sparing id v d spared)) x)
    (guards : w.Guards id v d spared) : Minds id v d spared x w := by
  intro r w' ran
  obtain ⟨isSealed, redraws⟩ := stirs w r w' ran guards.isSealed
  have spares := redraws.proceeds.spares guards
  exact ⟨spares.guards guards isSealed, spares⟩

end Combining

section Editing

variable {x : NodeId}

/-- Something is drawn as an effect would draw it. -/
theorem minds_edit (guards : w.Guards id v d spared)
    {f : (NodeId → Bool) → Document (Listener κ) → Document (Listener κ)}
    (draws : ∀ doc, w.documents[d]? = some doc → Draws (Effect.Sparing id v d spared) d
      (fun n => w.held ⟨d, n⟩ = true) doc (f (fun n => w.held ⟨d, n⟩) doc)) :
    Minds id v d spared (Run.edit d f) w := by
  intro r w' ran
  obtain ⟨isSealed, redraws⟩ := stirs_edit guards.isSealed ran draws
  have spares := redraws.proceeds.spares guards
  exact ⟨spares.guards guards isSealed, spares⟩

variable (guards : w.Guards id v d spared) (walkable : w.Walkable d spared x)
include guards walkable

theorem minds_setValue (value : String) : Minds id v d spared (Run.setValue ⟨d, x⟩ value) w := by
  have ⟨doc, there, inside, _⟩ := walkable
  apply minds_edit guards
  intro doc' there'
  obtain rfl := Option.some.inj (there.symm.trans there')
  exact .formValue value (walkable.sparing _ trivial rfl) inside

theorem minds_setHtml (markup : String) : Minds id v d spared (Run.setHtml ⟨d, x⟩ markup) w := by
  have ⟨doc, there, inside, _⟩ := walkable
  apply minds_edit guards
  intro doc' there'
  obtain rfl := Option.some.inj (there.symm.trans there')
  exact .html markup (walkable.sparing _ trivial rfl) inside fun _ isHeld => isHeld

theorem minds_setText (text : String) : Minds id v d spared (Run.setText ⟨d, x⟩ text) w := by
  have ⟨doc, there, inside, _⟩ := walkable
  apply minds_edit guards
  intro doc' there'
  obtain rfl := Option.some.inj (there.symm.trans there')
  exact .text text (walkable.sparing _ trivial rfl) inside fun _ isHeld => isHeld

theorem minds_listen (event : String) (listener : Listener κ) :
    Minds id v d spared (NodeRef.listen ⟨d, x⟩ event listener) w := by
  obtain ⟨doc, there, inside, -⟩ := walkable
  intro r w' ran
  obtain ⟨-, rfl⟩ := Prod.mk.inj (Option.some.inj ran)
  let hears : Node (Listener κ) → Node (Listener κ) := fun n =>
    { n with listeners := n.listeners ++ [(event, listener)] }
  have formed := guards.isSealed.formed there
  have fits : FitAll (fun n => w.held ⟨d, n⟩) doc [.write x hears] :=
    ⟨fun _ => ⟨rfl, rfl, rfl, rfl, rfl⟩, trivial⟩
  obtain ⟨intact, grows⟩ :=
    guards.isSealed.intact.move there (f := fun doc => doc.update x hears) fits rfl
  have spares : Spares d spared w
      { w with documents := w.documents.modify d fun doc => doc.update x hears } := by
    refine ⟨rfl, rfl, grows.holdsOn, fun doc' there' => ⟨doc.update x hears, ?_, ?_⟩⟩
    · simp only [Array.getElem?_modify, if_true, there, Option.map_some]
    · obtain rfl := Option.some.inj (there.symm.trans there')
      exact (touches_listen x event listener).forest.settles formed
  exact ⟨spares.guards guards (guards.isSealed.edited intact), spares⟩

end Editing
end Run

section Binding

open Run

variable {host : Nat → Performer κ → κ → Run κ Unit} {depth : Nat} {w : World κ} {x : NodeId}

theorem minds_observe (guards : w.Guards id v d spared) {effect : Effect κ} (suits : w.Suits effect)
    (sparing : effect.Sparing id v d spared) (path : String) :
    Minds id v d spared (View.observe (performer host depth) v path effect) w := by
  intro r w' ran
  obtain ⟨ended, proceeds, -⟩ :=
    View.observe_sealed (fun _ kind => kind.1) guards.isSealed suits sparing ran
  have spares := proceeds.spares guards
  exact ⟨spares.guards guards ended, spares⟩

/-- An observer is made for an effect on a node that may be walked, and something is done with what
it keeps. -/
theorem minds_observed (guards : w.Guards id v d spared) (walkable : w.Walkable d spared x)
    (effect : Effect κ) (within : effect.Scoped id v) (target : effect.target? = some ⟨d, x⟩)
    (plain : ∀ v ref pieces, effect ≠ .template v ref pieces) (path : String)
    {further : Observer κ → Run κ Unit}
    (each : ∀ observer w₁, w₁.Guards id v d spared → w₁.Walkable d spared x →
      Minds id v d spared (further observer) w₁) :
    Minds id v d spared (View.observe (performer host depth) v path effect >>= fun o =>
      Run.observer o >>= further) w := by
  have suits := suits_of_inside walkable.inside target plain
  apply (minds_observe guards suits (walkable.sparing effect within target) path).bind
  intro o w₁ guards₁ spares
  obtain ⟨observer, looked, -⟩ := observer_run o w₁
  apply Minds.congr (bind_of_ok looked _)
  exact each observer w₁ guards₁ (spares.walkable guards walkable)

/-- A directive on a node that may be walked. -/
theorem minds_directive (guards : w.Guards id v d spared) (walkable : w.Walkable d spared x)
    (directive : Directive) :
    Minds id v d spared (Binding.bind (performer host depth) v ⟨d, x⟩ directive) w := by
  cases directive with
  | model path =>
    apply minds_observed guards walkable (.formValue ⟨d, x⟩) trivial rfl nofun path
    intro observer w₁ guards₁ walkable₁
    apply (minds_setValue guards₁ walkable₁ _).bind
    intro _ w₂ guards₂ spares
    exact minds_listen guards₂ (spares.walkable guards₁ walkable₁) _ _
  | html path =>
    apply minds_observed guards walkable (.html ⟨d, x⟩) trivial rfl nofun path
    intro observer w₁ guards₁ walkable₁
    exact minds_setHtml guards₁ walkable₁ _
  | text path =>
    apply minds_observed guards walkable (.text ⟨d, x⟩) trivial rfl nofun path
    intro observer w₁ guards₁ walkable₁
    exact minds_setText guards₁ walkable₁ _
  | on event method => exact minds_listen guards walkable event _

theorem minds_element (guards : w.Guards id v d spared) (walkable : w.Walkable d spared x) :
    Minds id v d spared (Binding.element (performer host depth) v ⟨d, x⟩) w := by
  have ⟨doc, there, _⟩ := walkable
  apply Minds.congr (bind_of_ok (node_run there x) _)
  apply minds_forM guards
  rintro ⟨name, value⟩ - w₁ guards₁ spares
  dsimp only
  split
  · exact minds_directive guards₁ (spares.walkable guards walkable) _
  · exact minds_pure guards₁ _

/-- A text that is held stays a text while the observers of its slots are made. -/
theorem minds_template (guards : w.Guards id v d spared) (walkable : w.Walkable d spared x)
    (isHeld : w.held ⟨d, x⟩ = true) (isText : w.IsText ⟨d, x⟩) (pieces : List Piece) :
    Minds id v d spared (Binding.template (performer host depth) v ⟨d, x⟩ pieces) w := by
  have sparing : Effect.Sparing id v d spared (.template v ⟨d, x⟩ pieces) :=
    walkable.sparing _ rfl rfl
  unfold Binding.template
  refine Minds.bind (minds_forM guards ?_) ?_
  · intro path _ w₁ guards₁ spares
    have suits : w₁.Suits (.template v ⟨d, x⟩ pieces) := by
      constructor
      · intro other same
        cases same
        exact (spares.walkable guards walkable).inside
      · intro u other pieces' same
        cases same
        exact spares.isText isHeld isText
    exact (minds_observe guards₁ suits sparing path).bind fun _ w₂ guards₂ _ => minds_pure guards₂ _
  · intro _ w₁ guards₁ spares
    obtain ⟨view, found, same⟩ := guards₁.isSealed.shows
    apply Minds.congr (bind_of_ok (view_run found) _)
    rw [same]
    have rendered : Keeps (Stirs { store := id } v (Effect.Sparing id v d spared))
        (renderFrom (performer host depth) id pieces) :=
      stirs_renderFrom (fun c => stirs_performer (fun _ kind => kind.1) depth) pieces
    apply (minds_of_stirs rendered guards₁).bind
    intro text w₂ guards₂ spares'
    exact minds_setText guards₂ (spares'.walkable guards₁ (spares.walkable guards walkable)) text

theorem minds_visitAll {visit : NodeId → Run κ Unit}
    (each : ∀ (w : World κ) n, w.Guards id v d spared → w.Walkable d spared n →
      w.held ⟨d, n⟩ = true → Minds id v d spared (visit n) w)
    {ids : List NodeId} (guards : w.Guards id v d spared)
    (walkable : ∀ n ∈ ids, w.Walkable d spared n) :
    Minds id v d spared (View.visitAll d visit ids) w := by
  induction ids generalizing w with
  | nil => exact minds_pure guards _
  | cons n rest ih =>
    have visited : Minds id v d spared
        (Run.pinning ((n :: rest).map fun n => .node ⟨d, n⟩) (visit n)) w := by
      refine Minds.pinning (fun pinned => ?_) guards (fun pin member => ?_) fun ref member => ?_
      · exact each _ n pinned (walkable n List.mem_cons_self)
          (held_pinned (List.mem_append_left _ List.mem_cons_self))
      · obtain ⟨m, -, rfl⟩ := List.mem_map.mp member
        trivial
      · obtain ⟨m, listed, same⟩ := List.mem_map.mp member
        cases same
        exact (walkable m listed).inside
    apply visited.bind
    intro _ w₁ guards₁ spares
    exact ih guards₁ fun m member =>
      spares.walkable guards (walkable m (List.mem_cons_of_mem n member))

/-- The walk spares nodes if none of them is met. -/
theorem minds_bindBelow {levels : Nat} {parent : NodeId} (guards : w.Guards id v d spared)
    {doc : Document (Listener κ)} (there : w.documents[d]? = some doc)
    (clear : ∀ c ∈ (doc.node parent).children, Clear spared doc c) :
    Minds id v d spared (View.bindBelow (performer host depth) v d levels parent) w := by
  induction levels generalizing w parent doc with
  | zero =>
    intro _ _ ran
    cases ran
  | succ levels ih =>
    have formed := guards.isSealed.formed there
    rw [View.bindBelow_eq]
    apply Minds.congr (bind_of_ok (node_run there parent) _)
    refine minds_visitAll ?_ guards fun n member =>
      ⟨doc, there, inside_of_parent ((formed.links parent n).mp member), clear n member⟩
    intro w₁ n guards₁ walkable isHeld
    have ⟨doc₁, there₁, _⟩ := walkable
    apply Minds.congr (bind_of_ok (node_run there₁ n) _)
    cases kind : (doc₁.node n).kind with
    | element =>
      apply (minds_element guards₁ walkable).bind
      intro _ w₂ guards₂ spares
      obtain ⟨doc₂, there₂, -, clear₂⟩ := spares.walkable guards₁ walkable
      exact ih guards₂ there₂ fun c member =>
        clear₂.child (((guards₂.isSealed.formed there₂).links n c).mp member)
    | text =>
      dsimp only
      split
      · exact minds_template guards₁ walkable isHeld ⟨doc₁, there₁, kind⟩ _
      · exact minds_pure guards₁ _
    | comment => exact minds_pure guards₁ _
    | fragment => exact minds_pure guards₁ _

end Binding
end ReactiveView
