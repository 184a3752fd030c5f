import ReactiveView.Proofs.View.Building
import ReactiveView.Proofs.View.Currency

/-! Writing data changes bound nodes only. A view is made over data without computed properties, and
nothing but its own bindings observes the data. Typing into its elements comes down to writes. A
write of a path may touch what the bindings of this path and of longer paths show. It leaves alone
every other node that is held or in the tree, whether it goes well or fails. -/
namespace ReactiveView

variable {κ : Type} {perform : Performer κ} {v : ViewId} {w w' : World κ}

open World

namespace View

/-- The life of a view whose data only its own bindings observe. It is made, its data is written,
and in between anything may happen that leaves the view, its data and its bindings alone. -/
inductive Lives (perform : Performer κ) (v : ViewId) : World κ → Prop
  | made {w w' : World κ} {levels : Nat} {options : ViewOptions κ} : w.Intact →
      options.data.Canonical → options.computed = [] →
      (∀ ref, options.mount = some (.node ref) → w.Inside ref) →
      View.create perform levels options w = some (.ok v, w') → Lives perform v w'
  | set {w w' : World κ} {path : String} {value : Value} {r : Except BindingError Unit} :
      Lives perform v w → View.set perform v path value w = some (r, w') → Lives perform v w'
  | meanwhile {w w' : World κ} : Lives perform v w → w'.Intact →
      (∀ id, w.Shows id v → w'.Shows id v ∧ w'.stores[id]? = w.stores[id]?) →
      (∀ o path effect, w.Observed o path effect → w'.Observed o path effect) → Lives perform v w'

theorem set_run {view : View κ} (found : w.views[v]? = some view) (path : String) (value : Value) :
    View.set perform v path value w =
      Scope.assign perform { store := view.store } path value w :=
  Run.bind_of_ok (Run.view_run found) _

theorem Lives.serves (lives : Lives perform v w) : ∃ id, Serves id v w := by
  induction lives with
  | made intact canonical noComputed inside made =>
    exact ⟨_, (create_serves intact canonical noComputed inside made).1⟩
  | set _ ran ih =>
    obtain ⟨id, serves⟩ := ih
    obtain ⟨view, found, rfl⟩ := serves.shows
    rw [set_run found] at ran
    exact ⟨_, serves.assign ran⟩
  | meanwhile _ intact aside observed ih =>
    obtain ⟨id, serves⟩ := ih
    obtain ⟨shows, stores⟩ := aside id serves.shows
    exact ⟨id, serves.aside intact (fun _ => shows) stores observed⟩

/-- Names, pins and documents may change, as long as the references stay in order. -/
theorem Lives.still (lives : Lives perform v w) (intact : w'.Intact) (views : w'.views = w.views)
    (stores : w'.stores = w.stores) (observers : w'.observers = w.observers) :
    Lives perform v w' := by
  apply lives.meanwhile intact
  · intro id shows
    exact ⟨by simpa only [Shows, views] using shows, by rw [stores]⟩
  · intro o path effect observed
    simpa only [Observed, observers] using observed

/-- A view that was made can be kept under a name. -/
theorem Lives.kept {levels : Nat} {options : ViewOptions κ} {name : String} (intact : w.Intact)
    (canonical : options.data.Canonical) (noComputed : options.computed = [])
    (inside : ∀ ref, options.mount = some (.node ref) → w.Inside ref)
    (ran : View.keep perform levels options name w = some (.ok v, w')) : Lives perform v w' := by
  obtain ⟨_, w₁, created, kept⟩ := Run.bind_eq_ok ran
  obtain ⟨_, _, renamed, ended⟩ := Run.bind_eq_ok kept
  obtain ⟨-, rfl⟩ := Prod.mk.inj (Option.some.inj renamed)
  obtain ⟨same, rfl⟩ := Prod.mk.inj (Option.some.inj ended)
  obtain rfl := Except.ok.inj same
  have pinned := (create_serves intact canonical noComputed inside created).2
  refine (Lives.made intact canonical noComputed inside created).still ?_ rfl rfl rfl
  refine pinned.fewer ⟨?_, fun _ view found => ⟨view, found, rfl, List.Subset.refl _⟩,
    fun _ _ _ observed => observed⟩ rfl
  intro pin root
  cases pin with
  | node ref =>
    simp only [World.roots, Bool.or_eq_true, List.contains_iff_mem] at root ⊢
    exact root.imp_right (List.mem_cons_of_mem _)
  | observer o =>
    simp only [World.roots, Bool.or_eq_true, List.contains_iff_mem] at root ⊢
    exact root.imp_right (List.mem_cons_of_mem _)
  | view u =>
    simp only [World.roots, viewAlive, Bool.or_eq_true, List.contains_iff_mem] at root ⊢
    obtain named | was := root
    · obtain ⟨entry, member, same⟩ := List.any_eq_true.mp named
      obtain new | old := Entries.mem_set member
      · rw [← eq_of_beq same, new]
        exact .inr List.mem_cons_self
      · exact .inl (List.any_eq_true.mpr ⟨entry, old, same⟩)
    · exact .inr (List.mem_cons_of_mem _ was)

/-- Whatever comes of the run, the life of the view goes on, with the pins that there were. -/
def Prolongs {α : Type} (perform : Performer κ) (v : ViewId) (x : Run κ α) (w : World κ) : Prop :=
  ∀ r w', x w = some (r, w') → Lives perform v w' ∧ w'.pins = w.pins

namespace Lives

theorem prolongs_set (lives : Lives perform v w) (path : String) (value : Value) :
    Prolongs perform v (View.set perform v path value) w := by
  intro r w' ran
  refine ⟨lives.set ran, ?_⟩
  obtain ⟨id, serves⟩ := lives.serves
  obtain ⟨view, found, rfl⟩ := serves.shows
  obtain ⟨_, _, _, _, returned, -, -, -, -, pins⟩ := serves.assign_drawn perform path value
  rw [set_run found, returned] at ran
  obtain ⟨-, rfl⟩ := Prod.mk.inj (Option.some.inj ran)
  exact pins

theorem prolongs_pinning {α : Type} {pins : List Pin} {x : Run κ α} (lives : Lives perform v w)
    (admitted : ∀ pin ∈ pins, w.roots pin = true ∨ w.Admits pin)
    (inner : Lives perform v { w with pins := pins ++ w.pins } →
      Prolongs perform v x { w with pins := pins ++ w.pins }) :
    Prolongs perform v (Run.pinning pins x) w := by
  intro r w' ran
  obtain ⟨w₁, ended, rfl⟩ := Run.pinning_eq_some ran
  obtain ⟨_, serves⟩ := lives.serves
  obtain ⟨lives₁, same⟩ := inner (lives.still (serves.intact.pin admitted) rfl rfl rfl) r w₁ ended
  obtain ⟨_, serves₁⟩ := lives₁.serves
  exact ⟨lives₁.still (serves₁.intact.unpin same) rfl rfl rfl, rfl⟩

theorem prolongs_whileAlive {x : Run κ Unit} (lives : Lives perform v w)
    (inner : Lives perform v { w with pins := [.view v] ++ w.pins } →
      Prolongs perform v x { w with pins := [.view v] ++ w.pins }) :
    Prolongs perform v (Run.whileAlive v x) w := by
  intro r w' ran
  unfold Run.whileAlive at ran
  rw [Run.bind_of_ok (show Run.world w = some (.ok w, w) from rfl)] at ran
  split at ran
  · rename_i alive
    apply lives.prolongs_pinning ?_ inner r w' ran
    intro pin member
    obtain rfl := List.mem_singleton.mp member
    exact .inl alive
  · obtain ⟨-, rfl⟩ := Prod.mk.inj (Option.some.inj ran)
    exact ⟨lives, rfl⟩

/-- Listeners that write form values back write data of the view. -/
theorem prolongs_hear (lives : Lives perform v w) (event : Event) {listeners : List (Listener κ)}
    (own : ∀ listener ∈ listeners, ∃ path, listener = .writeBack v path) :
    Prolongs perform v (listeners.forM (Listener.hear perform event)) w := by
  induction listeners generalizing w with
  | nil =>
    intro r w' ran
    obtain ⟨-, rfl⟩ := Prod.mk.inj (Option.some.inj ran)
    exact ⟨lives, rfl⟩
  | cons listener rest ih =>
    have first : Prolongs perform v (listener.hear perform event) w := by
      obtain ⟨path, rfl⟩ := own listener List.mem_cons_self
      apply lives.prolongs_whileAlive
      intro pinned r w₁ ran
      obtain ⟨e, failed, -⟩ | ⟨node, w₂, read, written⟩ := Run.bind_eq_some ran
      · cases failed
      · obtain ⟨-, rfl⟩ := Prod.mk.inj (Option.some.inj read)
        exact pinned.prolongs_set path _ r w₁ written
    intro r w' ran
    obtain ⟨e, failed, -⟩ | ⟨_, w₁, heard, further⟩ := Run.bind_eq_some ran
    · exact first _ _ failed
    · obtain ⟨lives₁, pins⟩ := first _ _ heard
      obtain ⟨lives', same⟩ :=
        ih lives₁ (fun other member => own other (List.mem_cons_of_mem _ member)) r w' further
      exact ⟨lives', same.trans pins⟩

/-- Somebody types into an element that only the view listens to. -/
theorem prolongs_input {element : NodeRef} (lives : Lives perform v w) (inside : w.Inside element)
    (own : ∀ doc, w.documents[element.document]? = some doc →
      ∀ listener ∈ (doc.node element.node).listenersOf "input",
        ∃ path, listener = .writeBack v path)
    (text : String) : Prolongs perform v (element.input perform text) w := by
  intro r w' ran
  obtain ⟨_, serves⟩ := lives.serves
  obtain ⟨doc, there, slot⟩ := inside
  obtain ⟨e, failed, -⟩ | ⟨_, w₁, typed, heard⟩ := Run.bind_eq_some ran
  · cases failed
  · obtain ⟨served, onward⟩ := Run.sustains_setValue serves ⟨doc, there, slot⟩ text _ _ typed
    obtain rfl : w₁ = w.editing element.document fun _ doc => doc.setValue element.node text :=
      (Prod.mk.inj (Option.some.inj typed)).2.symm
    have lives₁ := lives.still served.intact rfl rfl rfl
    have there₁ := Run.documents_editing there fun _ doc => doc.setValue element.node text
    rw [NodeRef.dispatch, Run.bind_of_ok (Run.node_run there₁ element.node)] at heard
    apply lives₁.prolongs_pinning ?_ ?_ r w' heard
    · intro pin member
      obtain rfl := List.mem_singleton.mp member
      exact .inr (onward.grows.inside ⟨doc, there, slot⟩)
    · intro pinned
      apply pinned.prolongs_hear
      intro listener listens
      have retains := (Document.setValue_spec slot text).2.2.1 element.node
      rw [Node.listenersOf, retains.listeners] at listens
      exact own doc there listener listens

end Lives
end View

/-- A write of the data of a view comes to an end. Then every node that was held or in the tree, or
below a node that was held, is as it was but for its place, unless a living binding that is
registered in the store of the view, and whose path begins with the written one, writes to the node,
or had its children replaced by `v-html` or `v-text` above the node. -/
theorem write_spares_unbound (lives : View.Lives perform v w) (path : String) (value : Value) :
    ∃ r w', View.set perform v path value w = some (r, w') ∧
      ∀ (ref : NodeRef) doc, w.documents[ref.document]? = some doc →
        Document.Sheltered (fun n => w.held ⟨ref.document, n⟩) doc ref.node →
        ∃ doc', w'.documents[ref.document]? = some doc' ∧
          ((doc'.node ref.node).content = (doc.node ref.node).content ∨
            ∃ o bound effect, w.Observed o bound effect ∧ effect.Binds v ∧ w.Registered v o ∧
              w.observerAlive o = true ∧ Path.pieces path <+: Path.pieces bound ∧
              (effect.target? = some ref ∨ ∃ top, Document.Above doc top ref.node ∧
                (effect = .html ⟨ref.document, top⟩ ∨ effect = .text ⟨ref.document, top⟩))) := by
  obtain ⟨id, serves⟩ := lives.serves
  obtain ⟨view, found, rfl⟩ := serves.shows
  obtain ⟨r, w', t, told, ran, -, -, watched, drawn, -⟩ :=
    serves.assign_drawn perform path value
  refine ⟨r, w', (View.set_run found path value).trans ran, ?_⟩
  intro ref doc there sheltered
  obtain ⟨doc', there', spared⟩ :=
    drawn.spares (Serves.withStore_intact serves.intact _ t) there sheltered
  refine ⟨doc', there', ?_⟩
  obtain same | ⟨o, member, p, effect, observed, target⟩ | ⟨top, ⟨o, member, p, either⟩, above⟩ :=
    spared
  · exact .inl same
  · obtain ⟨alive, registered, bound, effect', watches, begins, binds⟩ := watched o member
    obtain ⟨rfl, rfl⟩ := watches.unique observed
    exact .inr ⟨o, bound, effect', watches, binds, registered, alive, begins, .inl target⟩
  · obtain ⟨alive, registered, bound, effect, watches, begins, binds⟩ := watched o member
    refine .inr ⟨o, bound, effect, watches, binds, registered, alive, begins,
      .inr ⟨top, above, ?_⟩⟩
    obtain html | text := either
    · exact .inl (watches.unique html).2
    · exact .inr (watches.unique text).2

def badgePage : Document (Listener Empty) :=
  .ofMarkup "<div><p>Hi \x7b\x7bname\x7d\x7d</p><b v-text=name></b><i>\x7b\x7bage\x7d\x7d</i></div>"

def badge : ViewOptions Empty :=
  { mount := some (.node ⟨0, 1⟩)
    data := .object [("age", .string "41"), ("name", .string "Ann")] }

/-- The name is shown by a template and by a directive, and the age by another template. -/
theorem badge_written : ∃ (w w' : World Empty) (doc doc' : Document (Listener Empty)),
    View.Lives codeless 0 w ∧
    View.set codeless 0 "name" (.string "Bob") w = some (.ok (), w') ∧
    w.documents[0]? = some doc ∧ w'.documents[0]? = some doc' ∧
    [3, 4, 6].map doc.textContent = ["Hi Ann", "Ann", "41"] ∧
    [3, 4, 6].map doc'.textContent = ["Hi Bob", "Bob", "41"] ∧
    ∀ n, Document.Sheltered (fun n => w.held ⟨0, n⟩) doc n →
      (doc'.node n).content = (doc.node n).content ∨
      ∃ o bound effect, w.Observed o bound effect ∧ effect.Binds 0 ∧ w.Registered 0 o ∧
        w.observerAlive o = true ∧ Path.pieces "name" <+: Path.pieces bound ∧
        (effect.target? = some ⟨0, n⟩ ∨ ∃ top, Document.Above doc top n ∧
          (effect = .html ⟨0, top⟩ ∨ effect = .text ⟨0, top⟩)) := by
  have shown : ((View.keep codeless 5 badge "vm" { documents := #[badgePage] }).bind fun kept =>
      kept.2.documents[0]?.bind fun doc =>
        (View.set codeless 0 "name" (.string "Bob") kept.2).bind fun ended =>
          ended.2.documents[0]?.map fun doc' => (kept.1.toOption, ended.1.isOk,
            [3, 4, 6].map doc.textContent, [3, 4, 6].map doc'.textContent)) =
      some (some 0, true, ["Hi Ann", "Ann", "41"], ["Hi Bob", "Bob", "41"]) := by decide +kernel
  obtain ⟨⟨made, w⟩, kept, shown⟩ := Option.bind_eq_some_iff.mp shown
  obtain ⟨doc, there, shown⟩ := Option.bind_eq_some_iff.mp shown
  obtain ⟨⟨done, w'⟩, ended, shown⟩ := Option.bind_eq_some_iff.mp shown
  obtain ⟨doc', there', shown⟩ := Option.map_eq_some_iff.mp shown
  simp only [Prod.mk.injEq] at shown
  obtain ⟨isView, fine, before, after⟩ := shown
  cases made with
  | error e => cases isView
  | ok made =>
    cases done with
    | error e => cases fine
    | ok done =>
      obtain rfl : made = 0 := Option.some.inj isView
      have formed : badgePage.WellFormed := Document.State.wellFormed_ofMarkup _
      have start : ({ documents := #[badgePage] } : World Empty).Intact := by
        apply intact_start
        intro doc member
        exact (List.mem_singleton.mp (Array.mem_def.mp member)) ▸ formed
      have canonical : badge.data.Canonical := by
        refine ⟨?_, trivial, trivial, trivial⟩
        exact .cons (by decide) (.cons (by decide) .nil)
      have inside : ∀ ref, badge.mount = some (.node ref) →
          ({ documents := #[badgePage] } : World Empty).Inside ref := by
        rintro ref ⟨⟩
        exact ⟨badgePage, rfl, by decide +kernel⟩
      have lives := View.Lives.kept start canonical rfl inside kept
      obtain ⟨r, w₁, ran, spared⟩ := write_spares_unbound lives "name" (.string "Bob")
      obtain ⟨-, rfl⟩ := Prod.mk.inj (Option.some.inj (ended.symm.trans ran))
      refine ⟨w, w', doc, doc', lives, ended, there, there', before, after, ?_⟩
      intro n sheltered
      obtain ⟨doc₁, there₁, either⟩ := spared ⟨0, n⟩ doc there sheltered
      obtain rfl := Option.some.inj (there'.symm.trans there₁)
      exact either

end ReactiveView
