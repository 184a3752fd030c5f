import ReactiveView.Proofs.View.Currency

/-! What `v-text` shows. The text that the directive writes into an element is there when the walk
goes on below the element, and the walk takes it for a template. A value without slots is shown as
it is; a value with slots is shown with other data in their places. -/
namespace ReactiveView

variable {κ : Type}

namespace Site

open Document

variable {site : Site κ} {prior : Listener κ → Prop} {doc₀ doc' : Document (Listener κ)}
  {before after : World κ} {n : NodeId} {path : String}

/-- What no directive above it replaces is reached by way of elements. -/
theorem Holds.reached {bound : NodeId → Prop} {doc : Document (Listener κ)}
    (holds : site.Holds prior bound doc) (exposed : site.Exposed n) :
    Reached (·.kind = .element) doc site.top n := by
  induction exposed with
  | child parent => exact .child ((holds.exposed _ (.child parent)).1.trans parent)
  | further upper keeps parent ih =>
    have here := holds.exposed _ (.further upper keeps parent)
    exact .further ih ((holds.exposed _ upper).2.1.trans keeps.1) (here.1.trans parent)

namespace Mounted

variable (mounted : site.Mounted prior doc₀ doc' before after)
include mounted

/-- Moving the nodes back below the mount target leaves the text of an element. -/
theorem labelled (reached : Reached Node.KeepsChildren doc₀ site.target n)
    (element : (doc₀.node n).kind = .element) (only : (doc₀.node n).directives = [.text path]) :
    ∃ v text, site.data.read path = .ok v ∧
      site.data.render (Template.ofString v.propertyText) = .ok text ∧ doc'.Labelled n text := by
  have holds := mounted.walked.holds
  obtain ⟨exposed, own⟩ := mounted.exposed n reached
  obtain ⟨kind, -, attributes, -⟩ := Node.own_inj own
  obtain ⟨-, kind', attributes'⟩ := holds.exposed n exposed
  have reachedThen := holds.reached exposed
  obtain ⟨v, text, read, comesTo, labelled⟩ := (mounted.settled n reachedThen).text path
    (kind'.trans (kind.trans element))
    ((Node.directives_congr (attributes'.trans attributes)).trans only)
  exact ⟨v, text, read, comesTo, mounted.rehangs.labelled holds.formed
    (holds.ne_top reachedThen.above) (holds.ne_target reachedThen.above) labelled⟩

theorem textContent {text : String} (reached : Reached Node.KeepsChildren doc₀ site.target n)
    (element : (doc₀.node n).kind = .element) (labelled : doc'.Labelled n text) :
    doc'.textContent n = text := by
  have holds := mounted.walked.holds
  obtain ⟨exposed, own⟩ := mounted.exposed n reached
  obtain ⟨p, parent⟩ := (holds.reached exposed).above.parent_eq_some
  have element' : (doc'.node n).kind = .element := calc
    _ = ((site.doc before).node n).kind := (Node.own_inj (mounted.rehangs.own n)).1
    _ = (site.base.node n).kind := (holds.exposed n exposed).2.1
    _ = (doc₀.node n).kind := (Node.own_inj own).1
    _ = .element := element
  refine labelled.textContent (mounted.rehangs.size ▸ inside_of_parent parent) ?_
  simp [Node.isCharacterData, element']

/-- The view reads its data. -/
theorem get (perform : Performer κ) (path : String) :
    View.get perform site.view path after = some (site.data.read path, after) := by
  have found : after.views[site.view]? = some (site.made before) :=
    mounted.views ▸ mounted.walked.found
  have here : after.stores[(site.made before).store]? = some (site.cells before) := by
    rw [mounted.walked.store, mounted.stores]
    exact mounted.walked.here
  unfold View.get
  rw [Run.bind_of_ok (Run.view_run found), ← mounted.walked.same.read]
  exact Scope.resolve_untracked perform (mounted.walked.same.plain mounted.walked.plain) here path

end Mounted
end Site

/-- Right after a view was made, an element whose only directive is `v-text`, with no `v-text` or
`v-html` above it, shows what the value of its path comes to when it is taken for a template. A
value without slots is shown as it is. -/
theorem text_directive_rendered {perform : Performer κ} {levels : Nat} {options : ViewOptions κ}
    {point : MountPoint} {target : NodeRef} {v : ViewId} {doc₀ : Document (Listener κ)}
    {w₀ w₁ : World κ} (mount : options.mount = some point)
    (mounted : View.findMount point w₀ = some (.ok (some target), w₀))
    (noComputed : options.computed = []) (there : w₀.documents[target.document]? = some doc₀)
    (formed : doc₀.WellFormed) (inside : target.node < doc₀.size)
    (made : View.create perform levels options w₀ = some (.ok v, w₁)) :
    ∃ doc₁, w₁.documents[target.document]? = some doc₁ ∧
      ∀ n path, Document.Reached Node.KeepsChildren doc₀ target.node n →
        (doc₀.node n).kind = .element → (doc₀.node n).directives = [.text path] →
          ∃ value, View.get perform v path w₁ = some (.ok value, w₁) ∧
            Template.render (View.get perform v) (Template.ofString value.propertyText) w₁ =
              some (.ok (doc₁.textContent n), w₁) ∧
            (Template.hasSlot (Template.ofString value.propertyText) = false →
              doc₁.textContent n = value.propertyText) := by
  obtain ⟨site, before, doc₁, bound, rfl, -, -, isDocument, isTarget⟩ :=
    View.create_mounted (fun _ => True) mount mounted noComputed there formed inside
      (fun _ _ _ => trivial) made
  obtain ⟨d, t⟩ := target
  obtain rfl : site.document = d := isDocument
  obtain rfl : site.target = t := isTarget
  refine ⟨doc₁, bound.there, fun n path reached element only => ?_⟩
  obtain ⟨value, text, read, comesTo, labelled⟩ := bound.labelled reached element only
  obtain rfl := bound.textContent reached element labelled
  have get := bound.get perform
  refine ⟨value, by rw [get, read], ?_, fun noSlot => ?_⟩
  · rw [Template.render_still get, comesTo]
  · exact Except.ok.inj (comesTo.symm.trans (Store.render_of_noSlot site.data noSlot))

def noticePage : Document (Listener Empty) :=
  .ofMarkup "<div id=app><p v-text=t></p></div>"

def notice (text : String) : ViewOptions Empty :=
  { mount := some (.selector 0 "#app")
    data := .object [("t", .string text), ("u", .string "inner")] }

/-- Braces that make no slot are shown. -/
theorem notice_shown : ∃ w₁ doc₁,
    View.create codeless 5 (notice "\x7b\x7bu\x7d") { documents := #[noticePage] } =
      some (.ok 0, w₁) ∧
    w₁.documents[0]? = some doc₁ ∧ doc₁.textContent 2 = "\x7b\x7bu\x7d" := by
  have told : ((View.create codeless 5 (notice "\x7b\x7bu\x7d")
      { documents := #[noticePage] }).bind fun made =>
        (View.get codeless 0 "t" made.2).map fun got =>
        (made.1.toOption, got.1.toOption.map Value.propertyText)) =
          some (some 0, some "\x7b\x7bu\x7d") := by decide +kernel
  obtain ⟨⟨v, w₁⟩, made, told⟩ := Option.bind_eq_some_iff.mp told
  obtain ⟨⟨r, w₂⟩, got, same⟩ := Option.map_eq_some_iff.mp told
  obtain ⟨isView, isText⟩ := Prod.mk.inj same
  cases v with
  | error e => cases isView
  | ok v =>
    obtain rfl : v = 0 := Option.some.inj isView
    have formed : noticePage.WellFormed := Document.State.wellFormed_ofMarkup _
    have found : noticePage.query? Document.rootId "#app" = some 1 := by decide +kernel
    obtain ⟨doc₁, there, shown⟩ :=
      text_directive_rendered rfl (View.findMount_selector rfl found) rfl
      rfl formed (by decide +kernel) made
    obtain ⟨value, read, -, asIs⟩ := shown 2 "t" (.child (by decide +kernel)) (by decide +kernel)
      (by decide +kernel)
    obtain ⟨rfl, -⟩ := Prod.mk.inj (Option.some.inj (got.symm.trans read))
    have text : value.propertyText = "\x7b\x7bu\x7d" := Option.some.inj isText
    refine ⟨w₁, doc₁, made, there, (asIs ?_).trans text⟩
    rw [text]
    decide +kernel

/-- Data that looks like a slot is not shown: other data stands in its place. -/
theorem notice_interpreted : ∃ w₁ w₂ doc₁ value,
    View.create codeless 5 (notice "\x7b\x7b u \x7d\x7d") { documents := #[noticePage] } =
      some (.ok 0, w₁) ∧
    Document.Reached Node.KeepsChildren noticePage 1 2 ∧ (noticePage.node 2).kind = .element ∧
    (noticePage.node 2).directives = [.text "t"] ∧
    View.get codeless 0 "t" w₁ = some (.ok value, w₂) ∧
    value.propertyText = "\x7b\x7b u \x7d\x7d" ∧
    w₁.documents[0]? = some doc₁ ∧ doc₁.textContent 2 = "inner" := by
  have told : ((View.create codeless 5 (notice "\x7b\x7b u \x7d\x7d")
      { documents := #[noticePage] }).bind fun made =>
        (View.get codeless 0 "t" made.2).bind fun got =>
        made.2.documents[0]?.map fun doc =>
          (made.1.toOption, got.1.toOption.map Value.propertyText, doc.textContent 2)) =
            some (some 0, some "\x7b\x7b u \x7d\x7d", "inner") := by decide +kernel
  obtain ⟨⟨v, w₁⟩, made, told⟩ := Option.bind_eq_some_iff.mp told
  obtain ⟨⟨r, w₂⟩, got, told⟩ := Option.bind_eq_some_iff.mp told
  obtain ⟨doc₁, there, same⟩ := Option.map_eq_some_iff.mp told
  simp only [Prod.mk.injEq] at same
  obtain ⟨isView, isText, shown⟩ := same
  cases v with
  | error e => cases isView
  | ok v =>
    cases r with
    | error e => cases isText
    | ok value =>
      obtain rfl : v = 0 := Option.some.inj isView
      exact ⟨w₁, w₂, doc₁, value, made, .child (by decide +kernel), by decide +kernel,
        by decide +kernel, got, Option.some.inj isText, there, shown⟩

end ReactiveView
