import ReactiveView.Proofs.View.Detaching
import ReactiveView.Proofs.View.Tour

/-! What a new view has bound. If no directive below the mount target replaces children, the tour
meets the nodes below the target in document order, each of them once, and they are found as they
were before the view was made. -/
namespace ReactiveView

variable {κ : Type} {host : Nat → Performer κ → κ → Run κ Unit} {depth levels : Nat}
  {w w' : World κ} {v : ViewId} {target : NodeRef}

open Document World Run

theorem Node.boundPaths_congr {ℓ : Type} {m n : Node ℓ} (same : m.own = n.own) :
    m.boundPaths = n.boundPaths := by
  obtain ⟨kind, -, attributes, data, -, -⟩ := Node.own_inj same
  simp only [boundPaths, kind, models_congr attributes, data]

theorem Node.installs_congr {m n : Node (Listener κ)} (same : m.own = n.own) (v : ViewId) :
    m.installs v = n.installs v := by
  obtain ⟨kind, -, attributes, -, -, -⟩ := Node.own_inj same
  simp only [installs, kind, directives_congr attributes]

namespace Document.Detached

variable {ℓ : Type} {doc base : Document ℓ} {t f n : NodeId} (detached : Detached t f doc base)
  (formed : doc.WellFormed) (inside : t < doc.size) (free : (doc.node f).parent = none)
include detached formed inside free

theorem apart_of_walk (member : n ∈ doc.walk t) : n ≠ t ∧ n ≠ f := by
  have above := (walk_spec formed inside).2 n member
  refine ⟨(above.ne formed).symm, ?_⟩
  rintro rfl
  obtain ⟨p, parent⟩ := above.parent_eq_some
  cases free.symm.trans parent

/-- Below the fragment a walk visits what it would have visited below the node. -/
theorem visits : Visits base (base.node f).children (doc.walk t) := by
  rw [detached.moved]
  apply (visits_walk formed inside).congr
  intro n member
  obtain ⟨other, other'⟩ := detached.apart_of_walk formed inside free member
  exact ⟨(Node.own_inj (detached.own n other')).1, detached.others n other other'⟩

end Document.Detached

/-- A node that a tour has visited has got the listeners of its own directives. Appending a node to
another leaves listeners alone. -/
theorem Tour.Visited.heard {tour : Tour κ} {pins : List Pin} {visited : List NodeId}
    (reached : tour.Visited pins visited w) (once : visited.Nodup) :
    ∃ doc, w.documents[tour.document]? = some doc ∧ ∀ t f n,
      ((doc.append t f).node n).listeners = (tour.base.node n).listeners ++
        if n ∈ visited then (tour.base.node n).installs tour.view else [] := by
  obtain ⟨doc, there, dresses⟩ := reached.document
  refine ⟨doc, there, fun t f n => ?_⟩
  have formed := reached.isSealed.formed there
  rw [(Node.own_inj (formed.own_append t f n)).2.2.2.2.2, dresses.listeners, Tour.installed,
    gained_flatMap once]

/-- What is bound when a view has been compiled for the first time. -/
structure View.Bound (v : ViewId) (target : NodeRef) (doc : Document (Listener κ))
    (fragment : NodeId) (w w' : World κ) : Prop where
  observers : ∃ view, w'.views[v]? = some view ∧ view.observers.map w'.pathOf =
    ((doc.walk target.node).flatMap fun n => (doc.node n).boundPaths).map some
  listeners : ∃ doc', w'.documents[target.document]? = some doc' ∧
    (∀ n ∈ doc.walk target.node,
      (doc'.node n).listeners = (doc.node n).listeners ++ (doc.node n).installs v) ∧
    (∀ n, n ∉ doc.walk target.node → n ≠ fragment →
      (doc'.node n).listeners = (doc.node n).listeners) ∧ (doc'.node fragment).listeners = []
  others : ∀ d ≠ target.document, ∀ other, w.documents[d]? = some other →
    w'.documents[d]? = some other

/-- A tour through the nodes below the mount target binds what is there. -/
theorem View.compile_bound {view : View κ} {doc : Document (Listener κ)}
    (found : w.views[v]? = some view) (mount : view.mount = some target)
    (fresh : view.observers = []) (isHeld : w.held target = true)
    (there : w.documents[target.document]? = some doc)
    (isSealed : w.Sealed { store := view.store } v
      (Effect.Marks v target.document (· ∈ ([] : List NodeId))))
    (keeps : ∀ n ∈ doc.walk target.node, (doc.node n).kind = .element → (doc.node n).KeepsChildren)
    (ran : View.compile (performer host depth) levels v w = some (.ok (), w')) :
    View.Bound v target doc (w.fragmentFor target doc).1 w w' := by
  have formed := isSealed.formed there
  obtain ⟨_, there₀, inside⟩ := isSealed.intact.inside _ isHeld
  obtain rfl := Option.some.inj (there.symm.trans there₀)
  obtain ⟨fragment, after, isFragment, bound, rfl⟩ := View.compile_eq_some found mount there ran
  obtain rfl : fragment = w.fragmentFor target doc := isFragment
  have emptying := isSealed.emptying there
  generalize fragments : w.fragmentFor target doc = fragment at bound emptying ⊢
  have allocated : Allocates (fun n => w.held ⟨target.document, n⟩) doc fragment.2
      { kind := .fragment } fragment.1 := fragments ▸ allocates_alloc formed _ _
  obtain ⟨-, detached⟩ := detached_drains formed allocated inside isHeld
  have emptied := emptying_document there fragment
  obtain ⟨base, isBase⟩ : ∃ base,
    (fragment.2.node target.node).children.foldl (·.append fragment.1) fragment.2 = base := ⟨_, rfl⟩
  rw [isBase] at detached emptied
  obtain ⟨tour, rfl, isStore, isDocument, isBase, isBefore⟩ : ∃ tour : Tour κ, tour.view = v ∧
      tour.store = view.store ∧ tour.document = target.document ∧ tour.base = base ∧
      tour.before = w.emptying target fragment :=
    ⟨⟨v, view.store, target.document, base, w.emptying target fragment⟩, rfl, rfl, rfl, rfl, rfl⟩
  subst isBase
  obtain ⟨once, -⟩ := walk_spec formed inside
  have apart := fun n => detached.apart_of_walk formed inside allocated.top (n := n)
  have own : ∀ n ∈ doc.walk target.node, (tour.base.node n).own = (doc.node n).own :=
    fun n member => detached.own n (apart n member).2
  have start : tour.Visited (.node ⟨target.document, fragment.1⟩ :: w.pins) []
      (w.emptying target fragment) := by
    refine ⟨?_, rfl, ⟨view, found, by rw [fresh]; rfl⟩, ⟨tour.base, ?_, .refl _⟩, ?_⟩
    · rw [isStore, isDocument]
      exact emptying
    · rw [isDocument]
      exact emptied
    · rw [isBefore]
      exact fun _ _ _ there => there
  have ended := start.bindBelow (detached.visits formed inside allocated.top) once
    (fun n member isElement => by
      obtain ⟨kind, -, attributes, -⟩ := Node.own_inj (own n member)
      exact (Node.keepsChildren_congr kind attributes).mpr (keeps n member (kind ▸ isElement)))
    (isDocument ▸ bound)
  rw [List.nil_append] at ended
  obtain ⟨doc', there', heard⟩ := ended.heard once
  rw [isDocument] at there'
  have same : ∀ n, n ≠ fragment.1 → (tour.base.node n).listeners = (doc.node n).listeners :=
    fun n other => (Node.own_inj (detached.own n other)).2.2.2.2.2
  refine ⟨?_, ⟨_, documents_editing there' fun _ doc => doc.append target.node fragment.1,
    fun n member => ?_, fun n outside other => ?_, ?_⟩, fun d other doc₁ was => ?_⟩
  · obtain ⟨view', found', known⟩ := ended.observers
    refine ⟨view', found', known.trans ?_⟩
    rw [Tour.found, List.flatMap_congr fun n member => Node.boundPaths_congr (own n member)]
  · rw [heard target.node fragment.1, if_pos member, same n (apart n member).2,
      Node.installs_congr (own n member)]
  · rw [heard target.node fragment.1, if_neg outside, same n other, List.append_nil]
  · rw [heard target.node fragment.1, if_neg fun member => (apart _ member).2 rfl, detached.unheard,
      List.append_nil]
  · have before : (w.emptying target fragment).documents[d]? = some doc₁ := by
      rw [World.emptying, editing, set!_eq_modify, Array.getElem?_modify, if_neg other.symm,
        Array.getElem?_modify, if_neg other.symm, was]
    rw [editing, Array.getElem?_modify, if_neg other.symm]
    exact ended.others d (isDocument ▸ other) doc₁ (isBefore ▸ before)

/-- Every site below the mount target is bound once, in document order: the observers of a new view
have the paths of the `v-model` directives of each element and of the slots of each text, and each
node gets the listeners of its own directives and no others. -/
theorem bindings_in_document_order (intact : w.Intact) {options : ViewOptions κ}
    {point : MountPoint} (mount : options.mount = some point)
    (located : View.findMount point w = some (.ok (some target), w))
    (inside : ∀ ref, point = .node ref → w.Inside ref)
    (computed : ∀ c ∈ options.computed, c.2.Scoped w.stores.size w.views.size)
    {doc : Document (Listener κ)} (there : w.documents[target.document]? = some doc)
    (keeps : ∀ n ∈ doc.walk target.node, (doc.node n).kind = .element → (doc.node n).KeepsChildren)
    (made : View.create (performer host depth) levels options w = some (.ok v, w')) :
    View.Bound v target doc ((w.opened options (some target)).fragmentFor target doc).1 w w' := by
  obtain ⟨found, inner, answer, looked, -, isView, rfl, compiled⟩ := View.create_eq_some made
  obtain ⟨same, -⟩ := Prod.mk.inj (Option.some.inj ((looked point mount).symm.trans located))
  obtain rfl := Except.ok.inj same
  cases answer with
  | error e => cases isView
  | ok done =>
    obtain rfl := Except.ok.inj isView
    have within := inside_of_findMount located inside
    have isSealed : (w.opened options (some target)).Sealed { store := w.stores.size } w.views.size
        (Effect.Marks w.views.size target.document (· ∈ ([] : List NodeId))) :=
      sealed_opened intact (fun _ same => Option.some.inj same ▸ within) computed
    have isHeld : (w.opened options (some target)).held target = true :=
      held_mount Array.getElem?_push_size (viewAlive_pinned List.mem_cons_self) rfl
    obtain ⟨observers, listeners, others⟩ :=
      View.compile_bound (w := w.opened options (some target))
      Array.getElem?_push_size rfl rfl isHeld there isSealed keeps compiled
    exact ⟨observers, listeners, others⟩

/-- A form whose own directive is not bound, with a text that shows the same slot twice. -/
def formPage : Document (Listener Empty) :=
  .ofMarkup ("<form v-model=x><p v-on:click=go v-model=seen>" ++
    "\x7b\x7btotal\x7d\x7d\x7b\x7btotal\x7d\x7d</p><input v-model=count></form>")

/-- Reading the total writes to what the paragraph is bound to, and is in nobody's way. -/
theorem form_bound : ∃ w' doc', View.create codeless 5 tally { documents := #[formPage] } =
      some (.ok 0, w') ∧ w'.documents[0]? = some doc' ∧ (doc'.node 2).value = "once" ∧
    (∃ view, w'.views[0]? = some view ∧ view.observers.map w'.pathOf =
      (["seen", "total", "total", "count"] : List String).map some) ∧
    (doc'.node 2).listeners.map (·.1) = ["click", "input"] ∧ (doc'.node 1).listeners = [] := by
  have ran : ((View.create codeless 5 tally { documents := #[formPage] }).map fun made =>
      (made.1.toOption, made.2.documents[0]?.map fun doc => (doc.node 2).value)) =
        some (some 0, some "once") := by decide +kernel
  obtain ⟨⟨made, w'⟩, ran, same⟩ := Option.map_eq_some_iff.mp ran
  obtain ⟨isView, written⟩ := Prod.mk.inj same
  cases made with
  | error e => cases isView
  | ok v =>
    obtain rfl : v = 0 := Option.some.inj isView
    have formed : formPage.WellFormed := State.wellFormed_ofMarkup _
    have start : ({ documents := #[formPage] } : World Empty).Intact := by
      apply intact_start
      intro doc member
      exact (List.mem_singleton.mp (Array.mem_def.mp member)) ▸ formed
    have there : ({ documents := #[formPage] } : World Empty).documents[0]? = some formPage := rfl
    obtain ⟨size, walk, plain, slot, paths, events, silent⟩ : 1 < formPage.size ∧
        formPage.walk 1 = [2, 3, 4] ∧
        (∀ n ∈ [2, 3, 4], ∀ a ∈ (formPage.node n).attributes,
          (Directive.parse? a.1 a.2).all (fun directive => directive.model?.isSome ||
            directive = .on "click" "go") = true) ∧
        ((World.opened { documents := #[formPage] } tally (some ⟨0, 1⟩)).fragmentFor
          ⟨0, 1⟩ formPage).1 = 5 ∧
        ([2, 3, 4].flatMap fun n => (formPage.node n).boundPaths) =
          ["seen", "total", "total", "count"] ∧
        ((formPage.node 2).listeners ++ (formPage.node 2).installs 0).map (·.1) =
          ["click", "input"] ∧
        (formPage.node 1).listeners.length = 0 := by decide +kernel
    have inside : ∀ ref, MountPoint.node ⟨0, 1⟩ = .node ref →
        ({ documents := #[formPage] } : World Empty).Inside ref := by
      rintro ref ⟨⟩
      exact ⟨formPage, there, size⟩
    have keeps : ∀ n ∈ formPage.walk 1, (formPage.node n).kind = .element →
        (formPage.node n).KeepsChildren := by
      intro n member isElement
      rw [walk] at member
      refine ⟨isElement, fun a carried path => ?_⟩
      have fine := plain n member a carried
      constructor <;>
      · intro parsed
        rw [parsed] at fine
        cases fine
    have bound := bindings_in_document_order start rfl rfl inside total_scoped there keeps ran
    rw [slot] at bound
    obtain ⟨doc', there', gained, others, -⟩ := bound.listeners
    have observers := bound.observers
    rw [walk, paths] at observers
    rw [walk] at gained others
    refine ⟨w', doc', ran, there', ?_, observers, ?_, ?_⟩
    · rw [there'] at written
      exact Option.some.inj written
    · rw [gained 2 (by decide), events]
    · rw [others 1 (by decide) (by decide)]
      exact List.eq_nil_of_length_eq_zero silent

end ReactiveView
