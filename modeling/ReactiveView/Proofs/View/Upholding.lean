import ReactiveView.Proofs.View.Mounting
import ReactiveView.Proofs.View.Turns

/-! What a mounted view upholds: the texts that no directive above them replaces show their
templates, and the elements that the walk reached show the paths of their `v-model` directives. -/
namespace ReactiveView

variable {κ : Type}

namespace Site

open Document

variable (site : Site κ)

/-- What was bound in a world, with the nodes as they are back below the mount target. -/
def bindings (w : World κ) (doc : Document (Listener κ)) : Bindings κ where
  view := site.view
  document := site.document
  made := site.made w
  path o := (w.observers[o]?.elim "" (·.path))
  effect o := (w.observers[o]?.elim (.code fun _ _ => pure ()) (·.effect))
  node := doc.node
  texts n template := site.Text n ∧ template = site.template n
  fields n := Reached (·.kind = .element) doc site.target n ∧ (doc.node n).kind = .element ∧
    (doc.node n).models ≠ []

namespace Mounted

variable {site} {perform : Performer κ} {prior : Listener κ → Prop}
  {doc₀ doc' : Document (Listener κ)} {before after : World κ}

theorem recorded {o : ObserverId} {observer : Observer κ}
    (found : before.observers[o]? = some observer) :
    (site.bindings before doc').path o = observer.path ∧
      (site.bindings before doc').effect o = observer.effect := by
  simp only [bindings, found, Option.elim_some, and_self]

theorem of_has {path : String} {effect : Effect κ} (has : site.Has before path effect) :
    ∃ o ∈ (site.bindings before doc').made.observers, (site.bindings before doc').path o = path ∧
      (site.bindings before doc').effect o = effect := by
  obtain ⟨o, member, observer, found, rfl, rfl⟩ := has
  exact ⟨o, member, recorded found⟩

variable (mounted : site.Mounted prior doc₀ doc' before after)
include mounted

theorem own (n : NodeId) : (doc'.node n).own = ((site.doc before).node n).own :=
  mounted.rehangs.own n

theorem models (n : NodeId) : (doc'.node n).models = ((site.doc before).node n).models :=
  Node.models_congr (Node.own_inj (mounted.own n)).2.2.1

theorem listeners (n : NodeId) : (doc'.node n).listenersOf "input" =
    ((site.doc before).node n).listenersOf "input" := by
  simp only [Node.listenersOf, (Node.own_inj (mounted.own n)).2.2.2.2.2]

/-- An element with `v-model` that is reached was bound. -/
theorem bound_of_field {n : NodeId} (field : (site.bindings before doc').fields n) :
    site.Bound before n := by
  obtain ⟨reached, element, isModel⟩ := field
  have walked := mounted.walked
  have childless : ∀ n, ((site.doc before).node n).parent ≠ some site.target := by
    intro n parent
    have member := (walked.holds.formed.links site.target n).mpr parent
    rw [walked.holds.target_emptied] at member
    cases member
  have same : ∀ n, (doc'.node n).kind = .element → ((site.doc before).node n).kind = .element :=
    fun n element => (Node.own_inj (mounted.own n)).1.symm.trans element
  exact (mounted.settled n (mounted.rehangs.reached_before childless same reached)).bound
    (same n element) (mounted.models n ▸ isModel)

/-- The parent of a text that keeps its place lets the walk pass, or is the mount target. -/
theorem parent_of_text {n p : NodeId} (text : site.Text n)
    (parent : (doc'.node n).parent = some p) :
    p = site.target ∨ ((site.doc before).node p).KeepsChildren := by
  have holds := mounted.walked.holds
  obtain ⟨q, above, upper⟩ := text.1.parent
  rw [← (holds.exposed n text.1).1] at above
  rw [mounted.rehangs.parent] at parent
  split at parent
  · exact .inl (Option.some.inj parent).symm
  · rename_i elsewhere
    obtain rfl := Option.some.inj (above.symm.trans parent)
    obtain rfl | ⟨exposed, keeps⟩ := upper
    · exact (elsewhere above).elim
    · exact .inr ((holds.keepsChildren exposed).mpr keeps)

theorem ties {path : String} {effect : Effect κ} (ties : site.Ties (site.doc before) path effect) :
    (site.bindings before doc').Ties path effect := by
  have apart : ∀ n, n ≠ site.target → ¬ ((site.doc before).node n).KeepsChildren →
      ∀ m t, (site.bindings before doc').texts m t →
        ((site.bindings before doc').node m).parent ≠ some n := by
    intro n other replaces m t text parent
    rcases mounted.parent_of_text text.1 parent with same | keeps
    · exact other same
    · exact replaces keeps
  have kind : ∀ n, (doc'.node n).kind = ((site.doc before).node n).kind :=
    fun n => (Node.own_inj (mounted.own n)).1
  cases ties with
  | formValue n element bound =>
    exact .formValue n ((kind n).trans element) (mounted.models n ▸ bound)
  | html n other replaces => exact .html n (apart n other replaces)
  | text n element other replaces =>
    exact .text n ((kind n).trans element) (apart n other replaces)
  | template n pieces isText only =>
    refine .template n pieces ((kind n).trans isText) fun t bound => ?_
    rw [only bound.1]
    exact bound.2

/-- Listeners that look on do no harm, and the view has no methods that could. -/
theorem sane (quiet : ∀ listener, prior listener → listener.Quiet perform)
    (noMethods : site.methods = []) : (site.bindings before doc').Sane perform where
  ties o member := by
    obtain ⟨observer, observes⟩ := mounted.walked.observers o member
    obtain ⟨path, effect⟩ := recorded observes.found
    rw [path, effect]
    exact mounted.ties observes.ties
  isText n t text := by
    obtain ⟨⟨exposed, isText, slots⟩, rfl⟩ := text
    refine ⟨(Node.own_inj (mounted.own n)).1.trans
      ((mounted.walked.holds.exposed n exposed).2.1.trans isText), fun none => ?_⟩
    simp [Template.hasSlot, none] at slots
  slots n t text path slot := by
    obtain ⟨text, rfl⟩ := text
    exact of_has (mounted.walked.slots n text text.1.above path slot)
  models n field path bound := by
    have linked := (mounted.bound_of_field field).linked path
    rw [← mounted.models n] at linked
    exact of_has (linked bound).1
  isField n field := field.2
  writesBack n field path bound := by
    have linked := (mounted.bound_of_field field).linked path
    rw [← mounted.models n] at linked
    exact (mounted.listeners n).symm ▸ (linked bound).2
  hears n _ listener listens := by
    have heeds := mounted.walked.holds.listens n listener (mounted.listeners n ▸ listens)
    unfold Heeds at heeds
    rw [← mounted.models n] at heeds
    exact heeds.imp_left (quiet listener)
  methods := mounted.walked.methods.trans noMethods

/-- All of it is as the data says when the view was mounted. -/
theorem upheld (exact : site.data.Exact) (named : after.names.views.any (·.2 == site.view) = true) :
    (site.bindings before doc').Upheld (fun _ => False) (fun _ => False) after
      (site.cells before) doc' where
  view := mounted.views ▸ mounted.walked.found
  named := named
  here := by
    rw [mounted.stores]
    exact mounted.walked.store ▸ mounted.walked.here
  plain := mounted.walked.same.plain mounted.walked.plain
  sound := mounted.walked.same.sound mounted.walked.sound
  exact := mounted.walked.same.exact exact
  subscribed := mounted.walked.subscribed
  observers o member := by
    obtain ⟨observer, observes⟩ := mounted.walked.observers o member
    obtain ⟨path, effect⟩ := recorded observes.found
    have same := mounted.walked.same
    refine ⟨observer, ⟨mounted.observers ▸ observes.found, path.symm, effect.symm,
      exact.read mounted.walked.plain observes.value, fun c passed => ?_⟩,
      .inr ⟨observer.value, (same.read _).trans observes.value, .refl _⟩⟩
    rw [path, same.cellsAt] at passed
    exact observes.registered c passed
  there := mounted.there
  formed := mounted.rehangs.formed
  inside n target := by
    obtain ⟨o, member, target⟩ := target
    obtain ⟨observer, observes⟩ := mounted.walked.observers o member
    rw [(recorded observes.found).2] at target
    exact mounted.rehangs.size.symm ▸ observes.inside n target
  nodes n _ := .refl _
  texts n t text := by
    obtain ⟨text, rfl⟩ := text
    refine .inr (.inr ?_)
    rw [mounted.walked.same.render, (Node.own_inj (mounted.own n)).2.2.2.1]
    exact mounted.walked.holds.shown n text text.1.above
  fields n path field only := by
    obtain ⟨v, read, value⟩ :=
      (mounted.bound_of_field field).shows path (mounted.models n ▸ only)
    refine .inr (.inr ⟨v, (mounted.walked.same.read path).trans read, ?_⟩)
    rw [(Node.own_inj (mounted.own n)).2.2.2.2.1, value]

end Mounted
end Site
end ReactiveView
