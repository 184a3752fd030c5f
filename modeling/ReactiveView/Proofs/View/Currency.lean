import ReactiveView.Proofs.Document.Reuse
import ReactiveView.Proofs.View.Upholding

/-! Bound views are current. A view is mounted over data and kept under a name. Then its data is set
and texts are typed into its elements, in any order and any number of times, as long as every write
goes to a path that a cell backs and nothing fails. At every moment in between the bound texts and
elements show what the view answers when it is asked for the data. -/
namespace ReactiveView

variable {κ : Type}

open Run

namespace Bindings

variable {b : Bindings κ} {perform : Performer κ} {w w' : World κ} {s : Store (Computed κ)}
  {doc : Document (Listener κ)}

/-- What may happen to the view: exact data is set, or somebody types into a bound element. -/
def Takes (b : Bindings κ) : Turn → Prop
  | .set _ value => value.Exact
  | .input element _ => element.document = b.document ∧ b.fields element.node

theorem Upheld.turn (sane : b.Sane perform)
    (upheld : b.Upheld (fun _ => False) (fun _ => False) w s doc) {turn : Turn}
    (takes : b.Takes turn) (ran : turn.runBacked perform b.view w = some (.ok (), w')) :
    ∃ s' doc', b.Upheld (fun _ => False) (fun _ => False) w' s' doc' ∧
      ∀ element text path, turn = .input element text → (b.node element.node).models = [path] →
        s'.read path = .ok (.string text) := by
  cases turn with
  | set path value =>
    obtain ⟨backed, ran⟩ := upheld.backed ran
    obtain ⟨s', doc', upheld'⟩ := upheld.set sane takes backed ran
    exact ⟨s', doc', upheld', nofun⟩
  | input element text =>
    obtain ⟨d, n⟩ := element
    obtain ⟨rfl, field⟩ := takes
    obtain ⟨s', doc', upheld', read⟩ := upheld.input sane field ran
    refine ⟨s', doc', upheld', fun element' text' path same only => ?_⟩
    cases same
    exact read path only

theorem Upheld.turns (sane : b.Sane perform) {turns : List Turn}
    (upheld : b.Upheld (fun _ => False) (fun _ => False) w s doc)
    (takes : ∀ turn ∈ turns, b.Takes turn)
    (ran : turns.forM (Turn.runBacked perform b.view) w = some (.ok (), w')) :
    ∃ s' doc', b.Upheld (fun _ => False) (fun _ => False) w' s' doc' ∧
      ∀ element text path, turns.getLast? = some (.input element text) →
        (b.node element.node).models = [path] → s'.read path = .ok (.string text) := by
  induction turns generalizing w s doc with
  | nil =>
    obtain ⟨-, rfl⟩ := Prod.mk.inj (Option.some.inj ran)
    exact ⟨s, doc, upheld, nofun⟩
  | cons turn rest ih =>
    obtain ⟨_, w₁, first, ran⟩ := bind_eq_ok ran
    obtain ⟨s₁, doc₁, upheld₁, read⟩ := upheld.turn sane (takes turn List.mem_cons_self) first
    cases rest with
    | nil =>
      obtain ⟨-, rfl⟩ := Prod.mk.inj (Option.some.inj ran)
      refine ⟨s₁, doc₁, upheld₁, fun element text path last => ?_⟩
      exact read element text path (Option.some.inj last)
    | cons next later =>
      obtain ⟨s', doc', upheld', read'⟩ :=
        ih upheld₁ (fun turn member => takes turn (List.mem_cons_of_mem _ member)) ran
      refine ⟨s', doc', upheld', fun element text path last => ?_⟩
      rw [List.getLast?_cons_cons] at last
      exact read' element text path last

theorem Upheld.get {exempt pending} (upheld : b.Upheld exempt pending w s doc) (path : String) :
    View.get perform b.view path w = some (s.read path, w) := by
  unfold View.get
  rw [bind_of_ok (view_run upheld.view)]
  exact Scope.resolve_untracked perform upheld.plain upheld.here path

end Bindings

namespace View

variable (perform : Performer κ)

/-- Makes a view and keeps it under a name. -/
def keep (levels : Nat) (options : ViewOptions κ) (name : String) : Run κ ViewId := do
  let v ← View.create perform levels options
  Run.modify fun w =>
    { w with names := { w.names with views := Entries.set name v w.names.views } }
  return v

variable {perform}

/-- A view that is kept was mounted, and it has a name. -/
theorem keep_mounted {levels : Nat} {options : ViewOptions κ} {point : MountPoint}
    {target : NodeRef} {name : String} {v : ViewId} {doc : Document (Listener κ)} {w w' : World κ}
    (mount : options.mount = some point)
    (mounted : View.findMount point w = some (.ok (some target), w))
    (noComputed : options.computed = []) (noMethods : options.methods = [])
    (there : w.documents[target.document]? = some doc) (formed : doc.WellFormed)
    (inside : target.node < doc.size)
    (quiet : ∀ n, ∀ listener ∈ (doc.node n).listenersOf "input", listener.Quiet perform)
    (made : View.keep perform levels options name w = some (.ok v, w')) :
    w'.names.views.any (·.2 == v) = true ∧ ∃ (site : Site κ) (before : World κ) (doc' : _),
      site.Mounted (Listener.Quiet perform) doc doc' before w' ∧ site.view = v ∧
        site.data = .ofValue options.data ∧ site.methods = [] ∧
          site.document = target.document ∧ site.target = target.node := by
  obtain ⟨_, w₁, created, kept⟩ := bind_eq_ok made
  obtain ⟨_, _, renamed, ended⟩ := bind_eq_ok kept
  obtain ⟨-, rfl⟩ := Prod.mk.inj (Option.some.inj renamed)
  obtain ⟨same, rfl⟩ := Prod.mk.inj (Option.some.inj ended)
  obtain rfl := Except.ok.inj same
  refine ⟨List.any_eq_true.mpr ⟨_, Entries.set_names name _ _, by simp⟩, ?_⟩
  obtain ⟨site, before, doc', bound, isView, isData, isMethods, same⟩ :=
    create_mounted _ mount mounted noComputed there formed inside quiet created
  exact ⟨site, before, doc', bound.later ⟨rfl, rfl, rfl, rfl⟩, isView, isData,
    isMethods.trans noMethods, same⟩

end View

/-- What may happen to a view that is mounted in a document: exact data is set, or somebody types
into an element with `v-model` below the mount target. -/
def Turn.Fits (target : NodeRef) (doc : Document (Listener κ)) : Turn → Prop
  | .set _ value => value.Exact
  | .input element _ => element.document = target.document ∧
      Document.Reached (·.kind = .element) doc target.node element.node ∧
      (doc.node element.node).kind = .element ∧ (doc.node element.node).models ≠ []

/-- After any turns the bound texts and the bound elements show what the view answers. The texts are
told by the document before the view was made, the elements by the document right after that; after
each text that was typed the data holds it. -/
theorem bound_view_current {perform : Performer κ} {levels : Nat} {options : ViewOptions κ}
    {point : MountPoint} {target : NodeRef} {name : String} {v : ViewId} {turns : List Turn}
    {doc₀ doc₁ : Document (Listener κ)} {w₀ w₁ w₂ : World κ} (mount : options.mount = some point)
    (mounted : View.findMount point w₀ = some (.ok (some target), w₀)) (exact : options.data.Exact)
    (noComputed : options.computed = []) (noMethods : options.methods = [])
    (there : w₀.documents[target.document]? = some doc₀) (formed : doc₀.WellFormed)
    (inside : target.node < doc₀.size)
    (quiet : ∀ n, ∀ listener ∈ (doc₀.node n).listenersOf "input", listener.Quiet perform)
    (made : View.keep perform levels options name w₀ = some (.ok v, w₁))
    (there₁ : w₁.documents[target.document]? = some doc₁)
    (fits : ∀ turn ∈ turns, turn.Fits target doc₁)
    (ran : turns.forM (Turn.runBacked perform v) w₁ = some (.ok (), w₂)) :
    turns.forM (Turn.run perform v) w₁ = some (.ok (), w₂) ∧
      ∃ doc₂, w₂.documents[target.document]? = some doc₂ ∧
        (∀ n, Document.Reached Node.KeepsChildren doc₀ target.node n → (doc₀.node n).kind = .text →
          ∀ template, template = Template.ofString (doc₀.node n).data →
            Template.hasSlot template = true →
              Template.render (View.get perform v) template w₂ =
                some (.ok (doc₂.textContent n), w₂)) ∧
        (∀ n path, Document.Reached (·.kind = .element) doc₁ target.node n →
          (doc₁.node n).kind = .element → (doc₁.node n).models = [path] →
            ∃ value, View.get perform v path w₂ = some (.ok value, w₂) ∧
              (doc₂.node n).value = value.propertyText) ∧
        ∀ element text path, turns.getLast? = some (.input element text) →
          (doc₁.node element.node).models = [path] →
            View.get perform v path w₂ = some (.ok (.string text), w₂) := by
  obtain ⟨named, site, before, doc', bound, rfl, isData, isMethods, isDocument, isTarget⟩ :=
    View.keep_mounted mount mounted noComputed noMethods there formed inside quiet made
  obtain ⟨d, t⟩ := target
  obtain rfl : site.document = d := isDocument
  obtain rfl : site.target = t := isTarget
  obtain rfl := Option.some.inj (bound.there.symm.trans there₁)
  have sane := bound.sane (fun _ quiet => quiet) isMethods
  have upheld := bound.upheld (isData ▸ Store.exact_ofValue exact) named
  have takes : ∀ turn ∈ turns, (site.bindings before doc').Takes turn := by
    intro turn member
    have fit := fits turn member
    cases turn with
    | set path value => exact fit
    | input element text => exact fit
  refine ⟨Below.forM (Turn.runBacked_below perform site.view) turns w₁ _ ran, ?_⟩
  obtain ⟨s₂, doc₂, upheld₂, typed⟩ := upheld.turns sane takes ran
  have get : ∀ path, View.get perform site.view path w₂ = some (s₂.read path, w₂) := upheld₂.get
  refine ⟨doc₂, upheld₂.there, fun n reached isText template same slots => ?_,
    fun n path reached element only => ?_, fun element text path last only => ?_⟩
  · subst same
    obtain ⟨exposed, own⟩ := bound.exposed n reached
    have same := Node.own_inj own
    have template : site.template n = Template.ofString (doc₀.node n).data := by
      rw [Site.template, same.2.2.2.1]
    have text : (site.bindings before doc').texts n (site.template n) :=
      ⟨⟨exposed, same.1.trans isText, template ▸ slots⟩, rfl⟩
    have kind : (doc₂.node n).kind = .text :=
      (upheld₂.nodes n (sane.targets_text text)).kind.trans (sane.isText n _ text).1
    have content : doc₂.textContent n = (doc₂.node n).data := by
      simp [Document.textContent, Node.isCharacterData, kind]
    have shown := ((upheld₂.texts n _ text).resolve_left id).resolve_left (by
      rintro ⟨_, _, never, _⟩
      exact never)
    rw [Template.render_still get, content, ← template, shown]
  · obtain ⟨value, read, shown⟩ :=
      ((upheld₂.fields n path ⟨reached, element, by simp [only]⟩ only).resolve_left id).resolve_left
        (by
          rintro ⟨_, _, never, _⟩
          exact never)
    exact ⟨value, by rw [get, read], shown⟩
  · rw [get, typed element text path last only]

/-- A document in which no node listens to anything. -/
theorem listenersOf_of_silent {ℓ : Type} {doc : Document ℓ}
    (silent : ∀ n ∈ doc.nodes, n.listeners = []) (id : NodeId) (event : String) :
    (doc.node id).listenersOf event = [] := by
  have none : (doc.node id).listeners = [] := by
    unfold Document.node
    cases found : doc.nodes[id]? with
    | none => rfl
    | some n => exact silent n (Array.mem_of_getElem? found)
  simp only [Node.listenersOf, none, List.filter_nil, List.map_nil]

/-- Nothing but what views set up themselves. -/
def codeless : Performer Empty :=
  performer (fun _ _ command => nomatch command) 3

def greetingPage : Document (Listener Empty) :=
  .ofMarkup "<div><p>Hi \x7b\x7bname\x7d\x7d</p><input v-model=name></div>"

def greeting : ViewOptions Empty :=
  { mount := some (.node ⟨0, 1⟩), data := .object [("name", .string "Ann")] }

/-- The name is set, and then another one is typed into the field. -/
def greetingTurns : List Turn :=
  [.set "name" (.string "Bob"), .input ⟨0, 4⟩ "Cid"]

theorem greeting_current : ∃ w₁ w₂ doc₂,
    View.keep codeless 5 greeting "vm" { documents := #[greetingPage] } = some (.ok 0, w₁) ∧
    greetingTurns.forM (Turn.runBacked codeless 0) w₁ = some (.ok (), w₂) ∧
    w₂.documents[0]? = some doc₂ ∧ doc₂.textContent 3 = "Hi Cid" ∧
    View.get codeless 0 "name" w₂ = some (.ok (.string "Cid"), w₂) := by
  have told : ((View.keep codeless 5 greeting "vm" { documents := #[greetingPage] }).bind
      fun kept => (greetingTurns.forM (Turn.runBacked codeless 0) kept.2).map fun ended =>
        (kept.1.toOption, ended.1.isOk)) = some (some 0, true) := by decide +kernel
  have input : ((View.keep codeless 5 greeting "vm" { documents := #[greetingPage] }).bind
      fun kept => kept.2.documents[0]?.map fun doc =>
        ((doc.node 4).parent, (doc.node 4).kind, (doc.node 4).models)) =
          some (some 1, .element, ["name"]) := by decide +kernel
  obtain ⟨⟨v, w₁⟩, kept, told⟩ := Option.bind_eq_some_iff.mp told
  obtain ⟨⟨r, w₂⟩, ended, same⟩ := Option.map_eq_some_iff.mp told
  obtain ⟨isView, fine⟩ := Prod.mk.inj same
  rw [kept, Option.bind_some] at input
  obtain ⟨doc₁, there₁, same⟩ := Option.map_eq_some_iff.mp input
  simp only [Prod.mk.injEq] at same
  obtain ⟨parent, kind, models⟩ := same
  cases v with
  | error e => cases isView
  | ok v =>
    cases r with
    | error e => cases fine
    | ok done =>
      obtain rfl : v = 0 := Option.some.inj isView
      have parsed : Document.Reachable ⟨greetingPage, []⟩ :=
        .run .start (show Document.State.start.Allows (.parse _) from trivial)
      have formed := (Document.State.good_of_reachable parsed).formed
      have silent : ∀ n ∈ greetingPage.nodes, n.listeners = [] := by decide +kernel
      have fits : ∀ turn ∈ greetingTurns, turn.Fits ⟨0, 1⟩ doc₁ := by
        intro turn member
        simp only [greetingTurns, List.mem_cons, List.not_mem_nil, or_false] at member
        obtain rfl | rfl := member
        · exact trivial
        · exact ⟨rfl, .child parent, kind, by simp [models]⟩
      have mount : greeting.mount = some (.node ⟨0, 1⟩) := rfl
      have exact : greeting.data.Exact := ⟨trivial, trivial⟩
      have current := bound_view_current mount rfl exact rfl rfl rfl formed (by decide +kernel)
        (fun n listener listens => by
          rw [listenersOf_of_silent silent] at listens
          cases listens) kept there₁ fits ended
      obtain ⟨-, doc₂, there₂, texts, -, typed⟩ := current
      have read := typed ⟨0, 4⟩ "Cid" "name" rfl models
      have plain : (greetingPage.node 2).attributes = [] := by decide +kernel
      have keeps : (greetingPage.node 2).KeepsChildren :=
        ⟨by decide +kernel, fun a member => by rw [plain] at member; cases member⟩
      have reached : Document.Reached Node.KeepsChildren greetingPage 1 3 :=
        .further (.child (by decide +kernel)) keeps (by decide +kernel)
      have shown := texts 3 reached (by decide +kernel)
        [.literal 'H', .literal 'i', .literal ' ', .slot "name"] (by decide +kernel) rfl
      have greeted : Template.render (View.get codeless 0)
          [.literal 'H', .literal 'i', .literal ' ', .slot "name"] w₂ =
            some (.ok "Hi Cid", w₂) := by
        simp only [Template.render, List.mapM_cons, List.mapM_nil, bind_assoc, pure_bind]
        rw [bind_of_ok read]
        rfl
      have text : doc₂.textContent 3 = "Hi Cid" :=
        Except.ok.inj (Prod.mk.inj (Option.some.inj (shown.symm.trans greeted))).1
      exact ⟨w₁, w₂, doc₂, kept, ended, there₂, text, read⟩

end ReactiveView
