import ReactiveView.Proofs.Document.Draining
import ReactiveView.Proofs.View.Descent

/-! Mounting a view: the children of the mount target go to a fragment, are bound there, and come
back. Whatever is bound then is what the view upholds from now on. -/
namespace ReactiveView

variable {κ : Type}

namespace Run

variable {w w' : World κ} {d : DocumentId} {doc : Document (Listener κ)}

theorem createNode_run (there : w.documents[d]? = some doc) (n : Node (Listener κ)) :
    Run.createNode d n w = some (.ok ⟨d, (doc.alloc (fun n => w.held ⟨d, n⟩) n).1⟩,
      { w with documents := w.documents.set! d (doc.alloc (fun n => w.held ⟨d, n⟩) n).2 }) := by
  unfold Run.createNode
  rw [bind_of_ok (show Run.world w = some (.ok w, w) from rfl), bind_of_ok (document_run there)]
  rfl

theorem documents_set (there : w.documents[d]? = some doc) (doc' : Document (Listener κ)) :
    (w.documents.set! d doc')[d]? = some doc' := by
  obtain ⟨inside, -⟩ := Array.getElem?_eq_some_iff.mp there
  simp [inside]

theorem documents_editing (there : w.documents[d]? = some doc)
    (f : (NodeId → Bool) → Document (Listener κ) → Document (Listener κ)) :
    (w.editing d f).documents[d]? = some (f (fun n => w.held ⟨d, n⟩) doc) := by
  rw [World.editing, Array.getElem?_modify, if_pos rfl, there, Option.map_some]

/-- What is attempted does not fail. -/
theorem attempt_eq_some {x : Run κ Unit} {answer : Except BindingError (Except BindingError Unit)}
    (ran : Run.attempt x w = some (answer, w')) : ∃ r, answer = .ok r ∧ x w = some (r, w') := by
  obtain ⟨⟨r, after⟩, found, same⟩ := Option.map_eq_some_iff.mp ran
  obtain ⟨rfl, rfl⟩ := Prod.mk.inj same
  exact ⟨r, rfl, found⟩

end Run

/-- The world in which the children of a node were moved to a fragment, which is pinned. -/
def World.emptying (w : World κ) (target : NodeRef) (fragment : NodeId × Document (Listener κ)) :
    World κ :=
  World.editing { w with
    documents := w.documents.set! target.document fragment.2
    pins := .node ⟨target.document, fragment.1⟩ :: w.pins } target.document
      fun _ doc => (fragment.2.node target.node).children.foldl (·.append fragment.1) doc

/-- Compiling a view empties its mount target, binds what was there, and takes it back. -/
theorem View.compile_eq_some {perform : Performer κ} {levels : Nat} {w w' : World κ} {v : ViewId}
    {view : View κ} {target : NodeRef} {doc : Document (Listener κ)} {r : Except BindingError Unit}
    (found : w.views[v]? = some view) (mount : view.mount = some target)
    (there : w.documents[target.document]? = some doc)
    (ran : View.compile perform levels v w = some (r, w')) :
    ∃ fragment after, fragment =
        doc.alloc (fun n => w.held ⟨target.document, n⟩) { kind := .fragment } ∧
      View.bindBelow perform v target.document levels fragment.1 (w.emptying target fragment) =
        some (r, after) ∧
      w' = { after.editing target.document fun _ doc => doc.append target.node fragment.1 with
        pins := w.pins } := by
  unfold View.compile at ran
  rw [Run.bind_of_ok (Run.view_run found)] at ran
  simp only [mount] at ran
  rw [Run.bind_of_ok (Run.createNode_run there _)] at ran
  obtain ⟨after, bound, rfl⟩ := Run.pinning_eq_some ran
  rw [Run.bind_of_ok (Run.node_run (Run.documents_set there _) target.node)] at bound
  obtain ⟨_, moved, -⟩ | ⟨_, _, moved, bound⟩ := Run.bind_eq_some bound
  · cases moved
  obtain ⟨-, rfl⟩ := Prod.mk.inj (Option.some.inj moved)
  obtain ⟨_, attempted, -⟩ | ⟨result, inner, attempted, bound⟩ := Run.bind_eq_some bound
  · obtain ⟨_, wrong, -⟩ := Run.attempt_eq_some attempted
    cases wrong
  obtain ⟨_, same, walked⟩ := Run.attempt_eq_some attempted
  obtain rfl := Except.ok.inj same
  obtain ⟨_, returned, -⟩ | ⟨_, _, returned, ended⟩ := Run.bind_eq_some bound
  · cases returned
  obtain ⟨-, rfl⟩ := Prod.mk.inj (Option.some.inj returned)
  obtain ⟨rfl, rfl⟩ := Prod.mk.inj (Option.some.inj ended)
  exact ⟨_, inner, rfl, walked, rfl⟩

namespace Site

open Document Run

variable {site : Site κ} {perform : Performer κ} {prior : Listener κ → Prop}
  {bound : NodeId → Prop} {w w' : World κ}

section Start

variable {held : NodeId → Bool} {doc₀ doc₁ : Document (Listener κ)}

/-- The document before the walk: nothing is bound, and whatever was reached from the mount target
is reached from the fragment. -/
theorem holds_base (formed : doc₀.WellFormed)
    (allocated : Allocates held doc₀ doc₁ { kind := .fragment } site.top)
    (base : site.base = (doc₁.node site.target).children.foldl (·.append site.top) doc₁)
    (inside : site.target < doc₀.size) (isHeld : held site.target = true)
    (listened : ∀ n, ∀ listener ∈ (doc₀.node n).listenersOf "input", prior listener) :
    site.Holds prior (fun _ => False) site.base ∧
      ∀ n, Reached Node.KeepsChildren doc₀ site.target n →
        site.Exposed n ∧ (site.base.node n).own = (doc₀.node n).own := by
  have detached : Detached site.target site.top doc₀ site.base :=
    base ▸ (detached_drains formed allocated inside isHeld).2
  have keeps : ∀ n, n ≠ site.top → (doc₀.node n).KeepsChildren →
      (site.base.node n).KeepsChildren := by
    intro n other keeps
    have same := Node.own_inj (detached.own n other)
    exact (Node.keepsChildren_congr same.1 same.2.2.1).mpr keeps
  refine ⟨
    { formed := detached.formed
      inside := detached.inside
      topless := detached.topless
      fragment := detached.fragment
      target_inside := detached.target_inside
      target_outside := ⟨detached.apart, detached.outside⟩
      target_emptied := detached.emptied
      exposed := fun _ _ => ⟨rfl, rfl, rfl⟩
      waiting := fun _ _ _ => rfl
      shown := fun _ _ never => never.elim
      listens := fun n listener listens => .inl ?_ }, fun n reached => ?_⟩
  · by_cases here : n = site.top
    · subst here
      simp [Node.listenersOf, detached.unheard] at listens
    · rw [Node.listenersOf, (Node.own_inj (detached.own n here)).2.2.2.2.2] at listens
      exact listened n listener listens
  · obtain ⟨reached, other⟩ := detached.reached formed allocated.top keeps reached
    exact ⟨reached, detached.own n other⟩

variable (site) in
/-- The world before the walk. -/
theorem walked_start (holds : site.Holds prior (fun _ => False) site.base) {view : View κ}
    (found : w.views[site.view]? = some view) (store : view.store = site.store)
    (mount : view.mount = some ⟨site.document, site.target⟩) (methods : view.methods = site.methods)
    (fresh : view.observers = []) (alive : .view site.view ∈ w.pins)
    (pinned : .node ⟨site.document, site.top⟩ ∈ w.pins)
    (here : w.stores[site.store]? = some site.data)
    (there : w.documents[site.document]? = some site.base) (plain : site.data.Plain)
    (sound : site.data.Sound) (silent : ∀ c, (site.data.registry c).entries = []) :
    site.Walked prior (fun _ => False) w := by
  have made : site.made w = view := by simp only [Site.made, found, Option.getD_some]
  have cells : site.cells w = site.data := by simp only [Site.cells, here, Option.getD_some]
  have doc : site.doc w = site.base := by simp only [Site.doc, there, Option.getD_some]
  refine
    { found := by rw [made, found]
      here := by rw [cells, here]
      there := by rw [doc, there]
      alive := alive
      pinned := pinned
      plain := plain
      sound := sound
      base := ⟨holds.formed, holds.topless⟩
      store := by rw [made, store]
      mount := by rw [made, mount]
      methods := by rw [made, methods]
      same := by rw [cells]; exact .refl _
      subscribed := fun c o registered => ?_
      observers := fun o member => ?_
      slots := fun _ _ never => never.elim
      holds := by rw [doc]; exact holds }
  · rw [cells, silent] at registered
    cases registered
  · rw [made, fresh] at member
    cases member

end Start

/-- A view was mounted: everything was bound in one world, and in the next one the children are back
below the mount target. -/
structure Mounted (site : Site κ) (prior : Listener κ → Prop) (doc₀ doc' : Document (Listener κ))
    (before after : World κ) : Prop where
  walked : site.Walked prior (Above site.base site.top) before
  settled : ∀ n, Reached (·.kind = .element) (site.doc before) site.top n → site.Settled before n
  rehangs : Rehangs site.top site.target (site.doc before) doc'
  exposed : ∀ n, Reached Node.KeepsChildren doc₀ site.target n →
    site.Exposed n ∧ (site.base.node n).own = (doc₀.node n).own
  there : after.documents[site.document]? = some doc'
  views : after.views = before.views
  stores : after.stores = before.stores
  observers : after.observers = before.observers

/-- It makes no difference what is pinned or named afterwards. -/
theorem Mounted.later {prior : Listener κ → Prop} {doc₀ doc' : Document (Listener κ)}
    {before after after' : World κ} (mounted : site.Mounted prior doc₀ doc' before after)
    (still : after.documents = after'.documents ∧ after.stores = after'.stores ∧
      after.observers = after'.observers ∧ after.views = after'.views) :
    site.Mounted prior doc₀ doc' before after' :=
  { mounted with
    there := still.1 ▸ mounted.there
    stores := still.2.1 ▸ mounted.stores
    observers := still.2.2.1 ▸ mounted.observers
    views := still.2.2.2 ▸ mounted.views }

theorem compile_mounted {levels : Nat} {v : ViewId} {target : NodeRef} {view : View κ}
    {doc₀ : Document (Listener κ)} {data : Value} (found : w.views[v]? = some view)
    (mount : view.mount = some target) (fresh : view.observers = [])
    (alive : .view v ∈ w.pins) (store : w.stores[view.store]? = some (.ofValue data))
    (there : w.documents[target.document]? = some doc₀) (formed : doc₀.WellFormed)
    (inside : target.node < doc₀.size)
    (listened : ∀ n, ∀ listener ∈ (doc₀.node n).listenersOf "input", prior listener)
    (ran : View.compile perform levels v w = some (.ok (), w')) :
    ∃ (site : Site κ) (w₁ : World κ) (doc' : Document (Listener κ)),
      site.Mounted prior doc₀ doc' w₁ w' ∧ site.view = v ∧ site.data = .ofValue data ∧
        site.methods = view.methods ∧ site.document = target.document ∧
          site.target = target.node := by
  have isHeld := World.held_mount found (World.viewAlive_pinned alive) mount
  obtain ⟨fragment, after, isFragment, bound, rfl⟩ := View.compile_eq_some found mount there ran
  have allocated : Allocates (fun n => w.held ⟨target.document, n⟩) doc₀ fragment.2
      { kind := .fragment } fragment.1 := isFragment ▸ allocates_alloc formed _ _
  clear isFragment ran
  obtain ⟨d, t⟩ := target
  obtain ⟨top, doc₁⟩ := fragment
  obtain ⟨site, rfl, isStore, isData, isMethods, rfl, rfl, rfl, isBase⟩ : ∃ site : Site κ,
      site.view = v ∧ site.store = view.store ∧ site.data = .ofValue data ∧
      site.methods = view.methods ∧ site.document = d ∧ site.target = t ∧ site.top = top ∧
      site.base = (doc₁.node t).children.foldl (·.append top) doc₁ :=
    ⟨⟨v, view.store, .ofValue data, view.methods, d, t, top, _⟩, rfl, rfl, rfl, rfl, rfl, rfl, rfl,
      rfl⟩
  obtain ⟨holds, exposed⟩ := site.holds_base formed allocated isBase inside isHeld listened
  have there₂ :
      (w.emptying ⟨site.document, site.target⟩ (site.top, doc₁)).documents[site.document]? =
      some site.base := by
    rw [isBase]
    exact Run.documents_editing (Run.documents_set there doc₁) _
  have start :=
    site.walked_start holds (w := w.emptying ⟨site.document, site.target⟩ (site.top, doc₁))
    found isStore.symm mount isMethods.symm fresh (List.mem_cons_of_mem _ alive) List.mem_cons_self
    (isStore ▸ isData ▸ store) there₂ (isData ▸ Store.content_ofValue data)
    (isData ▸ Store.sound_ofValue data) (isData ▸ Store.entries_ofValue data)
  obtain ⟨walked, advances, stays, reached, -⟩ :=
    descends levels start (.inl rfl) (fun _ _ _ never => never) bound
  have walked : site.Walked prior (Above site.base site.top) after :=
    walked.rebind fun n _ => by rw [false_or]
  have rehangs := rehangs_append walked.holds.formed walked.holds.target_inside
    walked.holds.fragment walked.holds.target_outside.1 walked.holds.target_outside.2
  have there' := Run.documents_editing walked.there
    fun _ doc => doc.append site.target site.top
  exact ⟨site, after, (site.doc after).append site.target site.top,
    ⟨walked, reached, rehangs, exposed, there', rfl, rfl, rfl⟩, rfl, isData, isMethods, rfl, rfl⟩

end Site

/-- The store that a view is made over: its data, with the computed properties defined over them. -/
def ViewOptions.cells (options : ViewOptions κ) : Store (Computed κ) :=
  options.computed.foldl (fun s c => s.defineComputed c.1 c.2) (.ofValue options.data)

namespace View

open Run

variable {perform : Performer κ}

theorem findMount_congr {point : MountPoint} {mount : Option NodeRef} {w w' : World κ}
    (documents : w'.documents = w.documents)
    (found : View.findMount point w = some (.ok mount, w)) :
    View.findMount point w' = some (.ok mount, w') := by
  cases point with
  | node ref =>
    obtain ⟨same, -⟩ := Prod.mk.inj (Option.some.inj found)
    exact congrArg (fun r => some (r, w')) same
  | selector d selector =>
    obtain ⟨same, -⟩ := Prod.mk.inj (Option.some.inj found)
    refine Eq.trans ?_ (congrArg (fun r => some (r, w')) same)
    show some (Except.ok _, w') = some (Except.ok _, w')
    rw [documents]

/-- Looking for the mount target changes nothing. -/
theorem findMount_run (point : MountPoint) (w : World κ) :
    ∃ mount, View.findMount point w = some (.ok mount, w) := by
  cases point with
  | node ref => exact ⟨_, rfl⟩
  | selector d selector => exact ⟨_, rfl⟩

theorem findMount_selector {w : World κ} {d : DocumentId} {doc : Document (Listener κ)}
    {selector : String} {n : NodeId} (there : w.documents[d]? = some doc)
    (found : doc.query? Document.rootId selector = some n) :
    View.findMount (.selector d selector) w = some (.ok (some ⟨d, n⟩), w) := by
  refine (bind_of_ok (document_run there) _).trans ?_
  rw [found]
  rfl

/-- Making a view adds its data and the view itself, and compiles it while it is pinned. -/
theorem create_eq_some {levels : Nat} {options : ViewOptions κ} {w w' : World κ}
    {r : Except BindingError ViewId} (ran : View.create perform levels options w = some (r, w')) :
    ∃ mount inner answer,
      (∀ point, options.mount = some point → View.findMount point w = some (.ok mount, w)) ∧
      (options.mount = none → mount = none) ∧ r = answer.map (fun _ => w.views.size) ∧
      w' = { inner with pins := w.pins } ∧
      View.compile perform levels w.views.size { w with
        stores := w.stores.push options.cells
        views := w.views.push { store := w.stores.size, methods := options.methods, mount }
        pins := .view w.views.size :: w.pins } = some (answer, inner) := by
  unfold View.create at ran
  obtain ⟨_, failed, -⟩ | ⟨store, w₁, created, ran⟩ := bind_eq_some ran
  · cases failed
  obtain ⟨same, rfl⟩ := Prod.mk.inj (Option.some.inj created)
  obtain rfl := Except.ok.inj same
  let filled : World κ := { w with stores := w.stores.push options.cells }
  have finish : ∀ mount : Option NodeRef, (do
      let v := (← Run.world).views.size
      Run.modify fun w' => { w' with
        views := w'.views.push { store := w.stores.size, methods := options.methods, mount } }
      Run.pinning [.view v] (View.compile perform levels v)
      return v : Run κ ViewId) filled = some (r, w') →
      ∃ inner answer, r = answer.map (fun _ => w.views.size) ∧ w' = { inner with pins := w.pins } ∧
        View.compile perform levels w.views.size { filled with
          views := w.views.push { store := w.stores.size, methods := options.methods, mount }
          pins := .view w.views.size :: w.pins } = some (answer, inner) := by
    intro mount ran
    let view : View κ := { store := w.stores.size, methods := options.methods, mount }
    obtain ⟨e, failed, rfl⟩ | ⟨_, w₅, compiled, ended⟩ := bind_eq_some (x := Run.pinning _ _)
      (w := { filled with views := w.views.push view }) ran
    · obtain ⟨inner, bound, rfl⟩ := pinning_eq_some failed
      exact ⟨inner, _, rfl, rfl, bound⟩
    · obtain ⟨inner, bound, rfl⟩ := pinning_eq_some compiled
      obtain ⟨rfl, rfl⟩ := Prod.mk.inj (Option.some.inj ended)
      exact ⟨inner, _, rfl, rfl, bound⟩
  cases chosen : options.mount with
  | none =>
    rw [chosen] at ran
    obtain ⟨inner, answer, isView, ended, bound⟩ := finish none ran
    exact ⟨none, inner, answer, nofun, fun _ => rfl, isView, ended, bound⟩
  | some point =>
    obtain ⟨mount, looked⟩ := findMount_run point w
    simp only [chosen] at ran
    rw [bind_of_ok (findMount_congr (w := w) (by rfl) looked)] at ran
    obtain ⟨inner, answer, isView, ended, bound⟩ := finish mount ran
    refine ⟨mount, inner, answer, ?_, nofun, isView, ended, bound⟩
    rintro _ ⟨⟩
    exact looked

theorem create_cases {levels : Nat} {options : ViewOptions κ} {v : ViewId} {w w' : World κ}
    (noComputed : options.computed = [])
    (ran : View.create perform levels options w = some (.ok v, w')) :
    ∃ mount inner, (∀ point, options.mount = some point →
      View.findMount point w = some (.ok mount, w)) ∧
      (options.mount = none → mount = none) ∧ v = w.views.size ∧
        w' = { inner with pins := w.pins } ∧
      View.compile perform levels v { w with
        stores := w.stores.push (.ofValue options.data)
        views := w.views.push { store := w.stores.size, methods := options.methods, mount }
        pins := .view v :: w.pins } = some (.ok (), inner) := by
  obtain ⟨mount, inner, answer, located, unmounted, isView, rfl, bound⟩ := create_eq_some ran
  have cells : options.cells = .ofValue options.data := by
    rw [ViewOptions.cells, noComputed]
    rfl
  cases answer with
  | error e => cases isView
  | ok u =>
    obtain rfl := Except.ok.inj isView
    rw [cells] at bound
    exact ⟨mount, inner, located, unmounted, rfl, rfl, bound⟩

theorem create_eq_ok {levels : Nat} {options : ViewOptions κ} {point : MountPoint}
    {target : NodeRef} {v : ViewId} {w w' : World κ} (mount : options.mount = some point)
    (mounted : View.findMount point w = some (.ok (some target), w))
    (noComputed : options.computed = [])
    (ran : View.create perform levels options w = some (.ok v, w')) :
    ∃ inner, v = w.views.size ∧ w' = { inner with pins := w.pins } ∧
      View.compile perform levels v { w with
        stores := w.stores.push (.ofValue options.data)
        views := w.views.push
          { store := w.stores.size, methods := options.methods, mount := some target }
        pins := .view v :: w.pins } = some (.ok (), inner) := by
  obtain ⟨found, inner, looked, -, isView, ended, bound⟩ := create_cases noComputed ran
  obtain ⟨same, -⟩ := Prod.mk.inj (Option.some.inj ((looked point mount).symm.trans mounted))
  obtain rfl := Except.ok.inj same
  exact ⟨inner, isView, ended, bound⟩

/-- A view that was made was mounted. -/
theorem create_mounted {levels : Nat} {options : ViewOptions κ} {point : MountPoint}
    {target : NodeRef} {v : ViewId} {doc : Document (Listener κ)} {w w' : World κ}
    (prior : Listener κ → Prop) (mount : options.mount = some point)
    (mounted : View.findMount point w = some (.ok (some target), w))
    (noComputed : options.computed = []) (there : w.documents[target.document]? = some doc)
    (formed : doc.WellFormed) (inside : target.node < doc.size)
    (listened : ∀ n, ∀ listener ∈ (doc.node n).listenersOf "input", prior listener)
    (made : View.create perform levels options w = some (.ok v, w')) :
    ∃ (site : Site κ) (before : World κ) (doc' : Document (Listener κ)),
      site.Mounted prior doc doc' before w' ∧ site.view = v ∧ site.data = .ofValue options.data ∧
        site.methods = options.methods ∧ site.document = target.document ∧
          site.target = target.node := by
  obtain ⟨inner, rfl, rfl, compiled⟩ := create_eq_ok mount mounted noComputed made
  obtain ⟨site, before, doc', bound, same⟩ := Site.compile_mounted
    (by exact Array.getElem?_push_size) rfl rfl List.mem_cons_self
    (by exact Array.getElem?_push_size) (by exact there) formed inside listened compiled
  exact ⟨site, before, doc', bound.later ⟨rfl, rfl, rfl, rfl⟩, same⟩

end View
end ReactiveView
