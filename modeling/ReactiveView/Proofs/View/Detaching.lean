import ReactiveView.Proofs.View.Currency
import ReactiveView.Proofs.View.Sparing

/-! The mount target while its view is compiled. Its children hang below a fragment during the walk,
and neither the target nor the fragment is met there. So wherever the walk stops, the children that
go back are those that came, in their order. -/
namespace ReactiveView

variable {κ : Type} {host : Nat → Performer κ → κ → Run κ Unit} {depth levels : Nat}
  {w w' : World κ} {id : StoreId} {v : ViewId} {target : NodeRef}

open Document World Run

namespace Document

variable {ℓ : Type} {doc base : Document ℓ} {t f : NodeId}

namespace Detached

variable (detached : Detached t f doc base)
include detached

theorem not_above_fragment (a : NodeId) : ¬ Above base a f := by
  intro above
  obtain ⟨p, parent⟩ := above.parent_eq_some
  cases detached.topless.symm.trans parent

/-- Below the fragment neither the node nor the fragment is met. -/
theorem clear {c : NodeId} (member : c ∈ (base.node f).children) :
    Clear (fun n => n = t ∨ n = f) base c := by
  have parent := (detached.formed.links f c).mp member
  rintro n (rfl | rfl)
  · refine ⟨?_, fun above => detached.outside (.trans (.parent parent) above)⟩
    rintro rfl
    exact detached.outside (.parent parent)
  · refine ⟨?_, detached.not_above_fragment c⟩
    rintro rfl
    exact detached.not_above_fragment _ (.parent parent)

/-- If the document settles and the node and the fragment are spared, the children can go back. -/
theorem handsOver {held opened : NodeId → Prop} {doc' : Document ℓ}
    (settles : Settles held opened base doc') (isHeld : held t ∧ held f)
    (closed : ¬ opened t ∧ ¬ opened f) :
    ((doc'.append t f).node t).children = (doc.node t).children ∧
      ((doc'.append t f).node f).children = [] := by
  have outside : ¬ Above doc' f t := mt (settles.above f t isHeld.1) detached.outside
  have fragment := (settles.kind f isHeld.2).trans detached.fragment
  have back := handsOver_append settles.formed
    (Nat.lt_of_lt_of_le detached.target_inside settles.grown) fragment detached.apart outside
  refine ⟨?_, back.emptied⟩
  rw [back.received, settles.children t isHeld.1 closed.1, settles.children f isHeld.2 closed.2,
    detached.emptied, detached.moved, List.nil_append]

end Detached
end Document

/-- A living view with a mount target. Its computed properties and the effects of its observers keep
to its data, and none of these effects writes to the target. -/
structure View.Enclosed (v : ViewId) (target : NodeRef) (w : World κ) : Prop where
  alive : w.viewAlive v = true
  mounted : ∃ view, w.views[v]? = some view ∧ view.mount = some target ∧
    w.Sealed { store := view.store } v
      (Effect.Sparing view.store v target.document (· = target.node))

/-- The fragment that takes the children of a mount target. -/
def World.fragmentFor (w : World κ) (target : NodeRef) (doc : Document (Listener κ)) :
    NodeId × Document (Listener κ) :=
  doc.alloc (fun n => w.held ⟨target.document, n⟩) { kind := .fragment }

/-- The mount target has the children that it had, and the fragment has none. -/
def World.Restores (target : NodeRef) (w w' : World κ) : Prop :=
  ∃ doc doc', w.documents[target.document]? = some doc ∧
    w'.documents[target.document]? = some doc' ∧
    (doc'.node target.node).children = (doc.node target.node).children ∧
      (doc'.node (w.fragmentFor target doc).1).children = []

namespace World

variable {d : DocumentId} {doc doc₁ : Document (Listener κ)} {t f : NodeId}

/-- A slot that is not held is no target of a living observer. -/
theorem Sealed.apart {scope : Scope} {kind : Effect κ → Prop} (isSealed : w.Sealed scope v kind)
    {ref : NodeRef} (free : w.held ref = false) :
    w.Sealed scope v fun effect => kind effect ∧ effect.target? ≠ some ref := by
  have watched : ∀ o, w.Watched kind o →
      w.Watched (fun effect => kind effect ∧ effect.target? ≠ some ref) o := by
    intro o watched alive
    obtain ⟨path, effect, observed, isKind⟩ := watched alive
    refine ⟨path, effect, observed, isKind, fun target => ?_⟩
    cases free.symm.trans (held_iff.mpr (.inr (.inr ⟨o, path, effect, alive, observed, target⟩)))
  obtain ⟨s, here, contains⟩ := isSealed.store
  exact ⟨isSealed.intact, isSealed.shows, ⟨s, here, contains.mono (fun _ code => code) watched⟩,
    fun o tracker => watched o (isSealed.tracked o tracker)⟩

theorem emptying_document {target : NodeRef} (there : w.documents[target.document]? = some doc)
    (fragment : NodeId × Document (Listener κ)) :
    (w.emptying target fragment).documents[target.document]? =
      some ((fragment.2.node target.node).children.foldl (·.append fragment.1) fragment.2) :=
  documents_editing (documents_set there fragment.2) _

/-- What is allocated was not held. -/
theorem Intact.allocated_free {new : Node (Listener κ)} (intact : w.Intact)
    (there : w.documents[d]? = some doc)
    (allocated : Allocates (fun n => w.held ⟨d, n⟩) doc doc₁ new f) : w.held ⟨d, f⟩ = false := by
  obtain rfl | ⟨-, -, -, free⟩ := allocated.slot
  · apply Bool.eq_false_iff.mpr
    intro isHeld
    obtain ⟨_, there', inside⟩ := intact.inside _ isHeld
    obtain rfl := Option.some.inj (there.symm.trans there')
    exact Nat.lt_irrefl _ inside
  · exact free

/-- The seal is not broken when the children of a held node are moved to a fragment. -/
theorem Sealed.emptying {kind : Effect κ → Prop} (isSealed : w.Sealed { store := id } v kind)
    {target : NodeRef} (there : w.documents[target.document]? = some doc) :
    (w.emptying target (w.fragmentFor target doc)).Sealed { store := id } v kind := by
  let fragment := w.fragmentFor target doc
  have allocated : Allocates (fun n => w.held ⟨target.document, n⟩) doc fragment.2 _ fragment.1 :=
    allocates_alloc (isSealed.formed there) _ _
  let w₁ : World κ := { w with documents := w.documents.set! target.document fragment.2 }
  have there₁ : w₁.documents[target.document]? = some fragment.2 := documents_set there fragment.2
  have sealed₁ : w₁.Sealed { store := id } v kind := by
    apply isSealed.edited
    have fits : FitAll (fun n => w.held ⟨target.document, n⟩) doc [.alloc { kind := .fragment }] :=
      ⟨⟨rfl, rfl, rfl⟩, trivial⟩
    rw [set!_eq_modify]
    exact (isSealed.intact.move there (f := fun _ => fragment.2) fits rfl).1
  have sealed₂ : Sealed { store := id } v kind
      { w₁ with pins := [.node ⟨target.document, fragment.1⟩] ++ w₁.pins } := by
    refine sealed₁.pinning (fun pin member => ?_) fun ref member => ?_
    · obtain rfl := List.mem_singleton.mp member
      trivial
    · cases List.mem_singleton.mp member
      exact ⟨fragment.2, there₁, allocated.inside⟩
  exact sealed₂.edited (sealed₂.intact.move there₁
    (fitAll_appends (sealed₁.formed there₁) allocated.inside _)
    (moveAll_appends fragment.1 (fragment.2.node target.node).children fragment.2).symm).1

/-- When the walk begins, the target and the fragment are guarded. -/
theorem guards_emptying (isSealed : w.Sealed { store := id } v (Effect.Sparing id v d (· = t)))
    (isHeld : w.held ⟨d, t⟩ = true) (there : w.documents[d]? = some doc) :
    let fragment := w.fragmentFor ⟨d, t⟩ doc
    (w.emptying ⟨d, t⟩ fragment).Guards id v d fun n => n = t ∨ n = fragment.1 := by
  intro fragment
  have free := isSealed.intact.allocated_free there
    (allocates_alloc (isSealed.formed there) (fun n => w.held ⟨d, n⟩) { kind := .fragment })
  have fewer :
      w.Sealed { store := id } v (Effect.Sparing id v d fun n => n = t ∨ n = fragment.1) := by
    refine (isSealed.apart free).mono fun effect isKind => ⟨isKind.1.1, ?_⟩
    rintro n (rfl | rfl)
    · exact isKind.1.2 _ rfl
    · exact isKind.2
  refine ⟨fewer.emptying there, ?_⟩
  rintro n (rfl | rfl)
  · have more : HoldsOn w (w.emptying ⟨d, n⟩ fragment) :=
      .of_pins rfl (fun _ member => List.mem_cons_of_mem _ member) rfl fun _ _ _ observed =>
        observed
    exact more.held isHeld
  · exact held_pinned List.mem_cons_self

end World

/-- Wherever the walk stops, the children of the target are back afterwards, and the view may be
compiled once more. -/
theorem View.compile_restores (enclosed : View.Enclosed v target w) {r : Except BindingError Unit}
    (ran : View.compile (performer host depth) levels v w = some (r, w')) :
    w.Restores target w' ∧ View.Enclosed v target w' := by
  obtain ⟨d, t⟩ := target
  obtain ⟨view, found, mount, isSealed⟩ := enclosed.mounted
  have isHeld := held_mount found enclosed.alive mount
  obtain ⟨doc, there, inside⟩ := isSealed.intact.inside _ isHeld
  have formed := isSealed.formed there
  obtain ⟨fragment, after, isFragment, bound, rfl⟩ := View.compile_eq_some found mount there ran
  obtain rfl : fragment = w.fragmentFor ⟨d, t⟩ doc := isFragment
  generalize fragments : w.fragmentFor ⟨d, t⟩ doc = fragment at bound ⊢
  have allocated : Allocates (fun n => w.held ⟨d, n⟩) doc fragment.2 { kind := .fragment }
      fragment.1 := fragments ▸ allocates_alloc formed _ _
  obtain ⟨-, detached⟩ := detached_drains formed allocated inside isHeld
  have guards := guards_emptying isSealed isHeld there
  rw [fragments] at guards
  have emptied : (w.emptying ⟨d, t⟩ fragment).documents[d]? = some _ :=
    emptying_document there fragment
  obtain ⟨guarded, spares⟩ :=
    minds_bindBelow guards emptied (fun c member => detached.clear member) r after bound
  obtain ⟨doc', there', settles⟩ := spares.documents _ emptied
  obtain ⟨restored, cleared⟩ := detached.handsOver settles
    ⟨guards.held _ (.inl rfl), guards.held _ (.inr rfl)⟩
    ⟨fun opened => opened (.inl rfl), fun opened => opened (.inr rfl)⟩
  have ended := documents_editing there' fun _ doc => doc.append t fragment.1
  constructor
  · exact ⟨doc, _, there, ended, restored, by rw [fragments]; exact cleared⟩
  · have grown := Nat.lt_of_lt_of_le detached.target_inside settles.grown
    have fits : FitAll (fun n => after.held ⟨d, n⟩) doc' [.append t fragment.1] := ⟨grown, trivial⟩
    have returned := guarded.isSealed.edited (guarded.isSealed.intact.move there'
      (f := fun doc => doc.append t fragment.1) fits rfl).1
    have pins : after.pins = [.node ⟨d, fragment.1⟩] ++ w.pins := spares.pins
    have loosened : Sealed { store := view.store } v (Effect.Sparing view.store v d (· = t))
        { after.editing d fun _ doc => doc.append t fragment.1 with pins := w.pins } :=
      (returned.unpinning pins).mono fun effect isKind =>
        ⟨isKind.1, fun n same => isKind.2 n (.inl same)⟩
    obtain ⟨view', found', same⟩ := loosened.shows
    obtain ⟨view'', found'', mount', -⟩ := spares.holdsOn.views v view found
    obtain rfl : view'' = view' := Option.some.inj (found''.symm.trans found')
    refine ⟨?_, view'', found', mount'.trans mount, same ▸ loosened⟩
    have names : after.names = w.names := spares.names
    have alive := enclosed.alive
    simpa only [viewAlive, editing, names] using alive

/-- A new view whose computed properties keep to its data is enclosed. -/
theorem View.enclosed_opened (intact : w.Intact) {options : ViewOptions κ}
    (inside : w.Inside target)
    (computed : ∀ c ∈ options.computed, c.2.Scoped w.stores.size w.views.size) :
    View.Enclosed w.views.size target (w.opened options (some target)) :=
  ⟨viewAlive_pinned List.mem_cons_self, _, Array.getElem?_push_size, rfl,
    sealed_opened intact (fun _ same => Option.some.inj same ▸ inside) computed⟩

/-- Compiling an enclosed view begins with a loop that ends, and whatever it comes to, the mount
target has the children that it had, in their order, and the fragment has none. So it is when a view
is made whose computed properties keep to its data, also if they write to them, and also if a
binding fails. -/
theorem mount_children_restored (host : Nat → Performer κ → κ → Run κ Unit) :
    (∀ (w : World κ) v target, View.Enclosed v target w →
      (∃ doc emptied, w.documents[target.document]? = some doc ∧
        (w.emptying target (w.fragmentFor target doc)).documents[target.document]? = some emptied ∧
        Drains target.node (w.fragmentFor target doc).1 (w.fragmentFor target doc).2 emptied ∧
        (emptied.node (w.fragmentFor target doc).1).children = (doc.node target.node).children) ∧
      ∀ depth levels r w', View.compile (performer host depth) levels v w = some (r, w') →
        w.Restores target w' ∧ View.Enclosed v target w') ∧
    ∀ (w : World κ) (options : ViewOptions κ) point target, w.Intact → options.mount = some point →
      View.findMount point w = some (.ok (some target), w) →
      (∀ ref, point = .node ref → w.Inside ref) →
      (∀ c ∈ options.computed, c.2.Scoped w.stores.size w.views.size) →
      ∀ depth levels r w', View.create (performer host depth) levels options w = some (r, w') →
        (w.opened options (some target)).Restores target w' ∧
          View.Enclosed w.views.size target { w' with pins := .view w.views.size :: w'.pins } := by
  refine ⟨fun w v target enclosed => ⟨?_, fun depth levels r w' => View.compile_restores enclosed⟩,
    fun w options point target intact mount located inside computed depth levels r w' ran => ?_⟩
  · obtain ⟨view, found, mount, isSealed⟩ := enclosed.mounted
    have isHeld := held_mount found enclosed.alive mount
    obtain ⟨doc, there, inside⟩ := isSealed.intact.inside _ isHeld
    have formed := isSealed.formed there
    obtain ⟨drains, detached⟩ := detached_drains formed
      (allocates_alloc formed (fun n => w.held ⟨target.document, n⟩) _) inside isHeld
    exact ⟨doc, _, there, emptying_document there _, drains, detached.moved⟩
  · obtain ⟨found, inner, answer, looked, -, -, rfl, compiled⟩ := View.create_eq_some ran
    obtain ⟨same, -⟩ := Prod.mk.inj (Option.some.inj ((looked point mount).symm.trans located))
    obtain rfl := Except.ok.inj same
    have enclosed := View.enclosed_opened intact (inside_of_findMount located inside) computed
    obtain ⟨restores, enclosed'⟩ := View.compile_restores enclosed compiled
    have pins : inner.pins = .view w.views.size :: w.pins := by
      obtain ⟨view, found, mount, isSealed⟩ := enclosed.mounted
      obtain ⟨doc, there, -⟩ := isSealed.intact.inside _ (held_mount found enclosed.alive mount)
      obtain ⟨_, _, -, -, rfl⟩ := View.compile_eq_some found mount there compiled
      rfl
    refine ⟨restores, ?_⟩
    show View.Enclosed w.views.size target { inner with pins := .view w.views.size :: w.pins }
    rw [← pins]
    exact enclosed'

/-- The last element names no data. -/
def tallyPage : Document (Listener Empty) :=
  .ofMarkup "<div><p>\x7b\x7bseen\x7d\x7d \x7b\x7btotal\x7d\x7d</p><i v-text></i></div>"

/-- The total is the count, and it is noted that it was read. -/
def total (scope : Scope) : Program Empty Value :=
  .call (.write (.scope scope) "seen" (.string "once")) fun _ => .ask (.read (.scope scope) "count")

def tally : ViewOptions Empty :=
  { mount := some (.node ⟨0, 1⟩)
    data := .object [("count", .string "three"), ("seen", .string "never")]
    computed := [("total", { getter := total })] }

theorem total_scoped : ∀ c ∈ tally.computed, c.2.Scoped 0 0 := by
  intro c member
  obtain rfl := List.mem_singleton.mp member
  exact ⟨fun scope _ => ⟨rfl, fun _ => ⟨⟨rfl, .inr rfl⟩, fun _ => trivial⟩⟩, nofun⟩

/-- The getter has the first slot drawn while the second one is bound, and then the last binding
fails, as it does when the view is compiled once more. -/
theorem tally_restored : ∃ e w₁ e' w₂,
    View.create codeless 5 tally { documents := #[tallyPage] } = some (.error e, w₁) ∧
    (w₁.documents[0]?.map fun doc => ((doc.node 1).children, doc.textContent 1)) =
      some ([2, 4], "once three") ∧
    (World.opened { documents := #[tallyPage] } tally (some ⟨0, 1⟩)).Restores ⟨0, 1⟩ w₁ ∧
    View.compile codeless 5 0 { w₁ with pins := .view 0 :: w₁.pins } = some (.error e', w₂) ∧
    World.Restores ⟨0, 1⟩ { w₁ with pins := .view 0 :: w₁.pins } w₂ := by
  have broken : ((View.create codeless 5 tally { documents := #[tallyPage] }).bind fun made =>
      (View.compile codeless 5 0 { made.2 with pins := .view 0 :: made.2.pins }).map fun again =>
        (made.1.isOk, again.1.isOk, made.2.documents[0]?.map fun doc =>
          ((doc.node 1).children, doc.textContent 1))) =
      some (false, false, some ([2, 4], "once three")) := by decide +kernel
  obtain ⟨⟨made, w₁⟩, failed, broken⟩ := Option.bind_eq_some_iff.mp broken
  obtain ⟨⟨again, w₂⟩, failed', same⟩ := Option.map_eq_some_iff.mp broken
  simp only [Prod.mk.injEq] at same
  obtain ⟨refused, refused', shown⟩ := same
  cases made with
  | ok v => cases refused
  | error e =>
    cases again with
    | ok done => cases refused'
    | error e' =>
      have start : ({ documents := #[tallyPage] } : World Empty).Intact := by
        apply intact_start
        intro doc member
        exact (List.mem_singleton.mp (Array.mem_def.mp member)) ▸ State.wellFormed_ofMarkup _
      have inside : ∀ ref, MountPoint.node ⟨0, 1⟩ = .node ref →
          ({ documents := #[tallyPage] } : World Empty).Inside ref := by
        rintro ref ⟨⟩
        exact ⟨tallyPage, rfl, by decide +kernel⟩
      obtain ⟨restores, enclosed⟩ := (mount_children_restored _).2 _ tally _ ⟨0, 1⟩ start rfl rfl
        inside total_scoped 3 5 _ w₁ failed
      obtain ⟨restores', -⟩ :=
        ((mount_children_restored _).1 _ 0 ⟨0, 1⟩ enclosed).2 3 5 _ w₂ failed'
      exact ⟨e, w₁, e', w₂, failed, shown, restores, failed', restores'⟩

end ReactiveView
