import ReactiveView.Proofs.View.Building
import ReactiveView.Proofs.View.Scoped

/-! Sealed worlds while views are made. A new view comes with data of its own, whose computed
properties keep to them, and each observer that it makes has an effect of the kind. While the path
of an observer is read for the first time, code may run and redraw the documents. -/
namespace ReactiveView

variable {κ : Type} {host : Nat → Performer κ → κ → Run κ Unit} {depth : Nat} {w w' w'' : World κ}
  {scope : Scope} {id : StoreId} {v : ViewId} {kind : Effect κ → Prop}

open World Run

namespace World

/-- Observers and views were added, and documents were redrawn. -/
structure Proceeds (kind : Effect κ → Prop) (w w' : World κ) : Prop where
  names : w'.names = w.names
  pins : w'.pins = w.pins
  holdsOn : HoldsOn w w'
  documents : ∀ (d : DocumentId) doc, w.documents[d]? = some doc →
    ∃ doc', w'.documents[d]? = some doc' ∧
    Redrawn kind d (fun n => w.held ⟨d, n⟩ = true) doc doc'

theorem Redraws.proceeds (redraws : Redraws kind w w') : Proceeds kind w w' :=
  ⟨redraws.names, redraws.pins, redraws.holdsOn, redraws.documents⟩

namespace Sealed

/-- More effects may be of the kind. -/
theorem mono {kind' : Effect κ → Prop} (isSealed : w.Sealed scope v kind)
    (more : ∀ effect, kind effect → kind' effect) : w.Sealed scope v kind' := by
  have watched : ∀ o, w.Watched kind o → w.Watched kind' o := by
    intro o watched alive
    obtain ⟨path, effect, observed, isKind⟩ := watched alive
    exact ⟨path, effect, observed, more effect isKind⟩
  obtain ⟨s, here, contains⟩ := isSealed.store
  exact ⟨isSealed.intact, isSealed.shows, ⟨s, here, contains.mono (fun _ => id) watched⟩,
    fun o tracker => watched o (isSealed.tracked o tracker)⟩

theorem untracked (isSealed : w.Sealed scope v kind) : w.Sealed { store := scope.store } v kind :=
  ⟨isSealed.intact, isSealed.shows, isSealed.store, nofun⟩

theorem formed (isSealed : w.Sealed scope v kind) {d : DocumentId} {doc : Document (Listener κ)}
    (there : w.documents[d]? = some doc) : doc.WellFormed :=
  isSealed.intact.formed d doc there

/-- A change of a document that leaves the world intact breaks no seal. -/
theorem edited (isSealed : w.Sealed scope v kind) {documents : Array (Document (Listener κ))}
    (intact : ({ w with documents } : World κ).Intact) :
    ({ w with documents } : World κ).Sealed scope v kind :=
  ⟨intact, isSealed.shows, isSealed.store, isSealed.tracked⟩

/-- Observers come in whose effects are of the kind. -/
theorem accepting {fresh : ObserverId → Prop} (isSealed : w.Sealed { store := id } v kind)
    (accepts : Accepts fresh w w') (documents : w'.documents = w.documents)
    (stores : w'.stores = w.stores) (shows : w.Shows id v → w'.Shows id v)
    (observed : ∀ o path effect, w.Observed o path effect → w'.Observed o path effect)
    (known : ∀ o path effect, w'.Observed o path effect →
      ¬ fresh o ∧ w.Observed o path effect ∨ w.Suits effect)
    (news : ∀ o, fresh o → ∃ path effect, w'.Observed o path effect ∧ kind effect) :
    w'.Sealed { store := id } v kind := by
  have watched : ∀ o, w.Watched kind o → w'.Watched kind o := by
    intro o watched alive
    by_cases new : fresh o
    · exact news o new
    · obtain ⟨path, effect, was, isKind⟩ := watched (accepts.observerAlive new alive)
      exact ⟨path, effect, observed o path effect was, isKind⟩
  obtain ⟨s, here, contains⟩ := isSealed.store
  exact ⟨isSealed.intact.more accepts documents known, shows isSealed.shows,
    ⟨s, by rw [stores, here], contains.mono (fun _ code => code) watched⟩, nofun⟩

end Sealed

section Giving

/-- The world after a view was given an observer. -/
def giving (w : World κ) (v : ViewId) (o : ObserverId) : World κ :=
  { w with views := w.views.modify v fun view => { view with observers := view.observers ++ [o] } }

theorem views_giving (w : World κ) (v : ViewId) (o : ObserverId) (u : ViewId) :
    (w.giving v o).views[u]? = w.views[u]? ∨
      (w.giving v o).views[u]? = (w.views[u]?).map fun view =>
      { view with observers := view.observers ++ [o] } := by
  by_cases here : v = u
  · exact .inr (Array.getElem?_modify.trans (if_pos here))
  · exact .inl (Array.getElem?_modify.trans (if_neg here))

theorem view_giving (w : World κ) (v : ViewId) (o : ObserverId) {u : ViewId} {view : View κ}
    (found : w.views[u]? = some view) : ∃ view', (w.giving v o).views[u]? = some view' ∧
      view'.store = view.store ∧ view'.mount = view.mount ∧ view.observers ⊆ view'.observers := by
  obtain same | more := views_giving w v o u
  · exact ⟨view, same.trans found, rfl, rfl, List.Subset.refl _⟩
  · rw [found, Option.map_some] at more
    exact ⟨_, more, rfl, rfl, fun _ member => List.mem_append_left _ member⟩

theorem holdsOn_giving (w : World κ) (v : ViewId) (o : ObserverId) : HoldsOn w (w.giving v o) := by
  refine ⟨fun pin root => ?_, fun u view found => ?_, fun _ _ _ observed => observed⟩
  · cases pin <;> exact root
  · obtain ⟨view', found', -, rest⟩ := view_giving w v o found
    exact ⟨view', found', rest⟩

theorem accepts_giving (w : World κ) (v : ViewId) (o : ObserverId) :
    Accepts (· = o) w (w.giving v o) := by
  refine ⟨fun pin _ root => .inl ?_, fun u view' found => .inl ?_⟩
  · cases pin <;> exact root
  · obtain same | more := views_giving w v o u
    · exact ⟨view', same.symm.trans found, rfl, fun p member => .inl member⟩
    · obtain ⟨view, was, rfl⟩ := Option.map_eq_some_iff.mp (more.symm.trans found)
      refine ⟨view, was, rfl, fun p member => ?_⟩
      exact (List.mem_append.mp member).imp_right List.mem_singleton.mp

end Giving

section Watching

variable {path : String} {effect : Effect κ} (isSealed : w.Sealed { store := id } v kind)
variable (suits : w.Suits effect) (isKind : kind effect)
include isSealed suits isKind

/-- A new observer is pinned while its path is read. -/
theorem Sealed.watching (value : Value) :
    ({ w with
      observers := w.observers.push { path, value, effect }
      pins := [.observer w.observers.size] ++ w.pins } : World κ).Sealed
        { store := id, tracker := some w.observers.size } v kind := by
  have joined : ∀ {o : ObserverId} {path' effect'}, ({ w with
      observers := w.observers.push { path, value, effect }
      pins := [.observer w.observers.size] ++ w.pins } : World κ).Observed o path' effect' ↔ _ :=
    observed_push rfl
  have last := joined.mpr (.inr ⟨rfl, rfl, rfl⟩)
  have accepts : Accepts (· = w.observers.size) w { w with
      observers := w.observers.push { path, value, effect }
      pins := [.observer w.observers.size] ++ w.pins } := by
    refine ⟨fun pin old root => ?_, fun u view found => .inl ⟨view, found, rfl, fun o => .inl⟩⟩
    have either : w.roots pin = true ∨ pin ∈ [.observer w.observers.size] := roots_pinned root
    refine .inl (either.resolve_right fun member => ?_)
    exact old _ (List.mem_singleton.mp member) rfl
  have ended := isSealed.accepting accepts rfl rfl (fun shows => shows)
    (fun _ _ _ was => joined.mpr (.inl was))
    (fun o path' effect' now => by
      obtain was | ⟨-, -, rfl⟩ := joined.mp now
      · exact .inl ⟨Nat.ne_of_lt was.lt, was⟩
      · exact .inr suits)
    (fun o new => by subst new; exact ⟨path, effect, last, isKind⟩)
  refine ⟨ended.intact, ended.shows, ended.store, fun o tracker _ => ?_⟩
  obtain rfl := Option.some.inj tracker
  exact ⟨path, effect, last, isKind⟩

end Watching

end World

section Observing

variable {path : String} {effect : Effect κ} {r : Except BindingError ObserverId}
variable (effects : ∀ effect, kind effect → effect.Scoped id v)
variable (isSealed : w.Sealed { store := id } v kind) (suits : w.Suits effect)
  (isKind : kind effect)
include effects isSealed suits isKind

/-- Making an observer comes to nothing, or to an observer with the next number. Whatever code runs
meanwhile only redraws documents. -/
theorem observe_sealed (ran : observe (performer host depth) id path effect w = some (r, w')) :
    (w' = w ∧ ∀ o, r ≠ .ok o) ∨ ∃ inner : World κ,
      inner.Sealed { store := id, tracker := some w.observers.size } v kind ∧
      Redraws kind { w with
        observers := w.observers.push { path, effect }
        pins := [.observer w.observers.size] ++ w.pins } inner ∧
      w' = { inner with pins := w.pins } ∧ ∀ o, r = .ok o → o = w.observers.size := by
  have start : World.Sealed { store := id, tracker := some w.observers.size } v kind { w with
      observers := w.observers.push { path, effect }
      pins := [.observer w.observers.size] ++ w.pins } := isSealed.watching suits isKind .null
  have read : ∀ path, Keeps (Stirs ⟨id, some w.observers.size⟩ v kind)
      (Scope.resolve (performer host depth) ⟨id, some w.observers.size⟩ path) := fun path =>
    Scope.stirs_resolve (fun c => stirs_performer effects depth) ⟨rfl, .inr rfl⟩ path
  unfold observe at ran
  split at ran
  · obtain ⟨rfl, rfl⟩ := Prod.mk.inj (Option.some.inj ran)
    exact .inl ⟨rfl, nofun⟩
  · obtain ⟨e, failed, rfl⟩ | ⟨initial, w₁, known, ran⟩ := bind_eq_some (x := Run.pinning _ _)
      (w := { w with observers := w.observers.push { path, effect } }) ran
    · obtain ⟨inner, answer, rfl⟩ := pinning_eq_some failed
      obtain ⟨ended, redraws⟩ := read path _ _ _ answer start
      exact .inr ⟨inner, ended, redraws, rfl, nofun⟩
    · obtain ⟨inner, answer, rfl⟩ := pinning_eq_some known
      obtain ⟨ended, redraws⟩ := read path _ _ _ answer start
      obtain ⟨rfl, rfl⟩ := Prod.mk.inj (Option.some.inj ran)
      have kept : Redraws kind inner { inner with
          observers := inner.observers.modify w.observers.size fun observer =>
            { observer with value := initial } } :=
        .of_same rfl rfl rfl Array.size_modify
          (fun _ _ _ => Drawn.observed_modify inner w.observers.size initial inner.journal) rfl
      exact .inr ⟨_, ended.still kept rfl, redraws.trans kept, rfl, fun o same =>
        (Except.ok.inj same).symm⟩

/-- What the making of an observer leaves behind. -/
theorem observe_proceeds (ran : observe (performer host depth) id path effect w = some (r, w')) :
    w'.Sealed { store := id } v kind ∧ Proceeds kind w w' ∧ ∀ o, r = .ok o →
      w'.views = w.views ∧ w'.Observed o path effect ∧ w'.Suits effect := by
  obtain ⟨rfl, failed⟩ | ⟨inner, ended, redraws, rfl, number⟩ :=
    observe_sealed effects isSealed suits isKind ran
  · exact ⟨isSealed, (Redraws.refl w').proceeds, fun o same => (failed o same).elim⟩
  · have watching : HoldsOn w { w with
        observers := w.observers.push { path, effect }
        pins := [.observer w.observers.size] ++ w.pins } :=
      .of_pins rfl (fun _ member => List.mem_append_right _ member) rfl fun _ _ _ was =>
        (observed_push rfl).mpr (.inl was)
    have last : inner.Observed w.observers.size path effect :=
      (redraws.observed _ _ _).mpr ((observed_push rfl).mpr (.inr ⟨rfl, rfl, rfl⟩))
    refine ⟨(ended.unpinning redraws.pins).untracked, ⟨redraws.names, rfl, ?_, ?_⟩, ?_⟩
    · exact .of_pins redraws.names (fun _ pinned => pinned) redraws.views fun o path effect was =>
        (redraws.observed o path effect).mpr (watching.observed o path effect was)
    · intro d doc there
      obtain ⟨doc', there', redrawn⟩ := redraws.documents d doc there
      exact ⟨doc', there', redrawn.mono (fun _ isKind => isKind) fun _ => watching.held⟩
    · rintro o rfl
      obtain rfl := number o rfl
      refine ⟨redraws.views, last, ended.intact.suits (observerAlive_iff.mpr (.inl ?_)) last⟩
      simp [World.roots, redraws.pins]

/-- An observer that a view makes is the last one of the view then. -/
theorem View.observe_sealed
    (ran : View.observe (performer host depth) v path effect w = some (r, w')) :
    w'.Sealed { store := id } v kind ∧ Proceeds kind w w' ∧ ∀ o, r = .ok o →
      w'.Observed o path effect ∧ w'.views = (w.giving v o).views := by
  have ⟨view, found, same⟩ := isSealed.shows
  unfold View.observe at ran
  rw [bind_of_ok (view_run found)] at ran
  obtain rfl := same
  obtain ⟨e, failed, rfl⟩ | ⟨o, w₁, observed, ran⟩ := bind_eq_some ran
  · obtain ⟨ended, proceeds, -⟩ := observe_proceeds effects isSealed suits isKind failed
    exact ⟨ended, proceeds, nofun⟩
  · obtain ⟨ended, proceeds, last⟩ := observe_proceeds effects isSealed suits isKind observed
    obtain ⟨views, last, suits₁⟩ := last o rfl
    obtain ⟨rfl, rfl⟩ := Prod.mk.inj (Option.some.inj ran)
    refine ⟨ended.accepting (accepts_giving w₁ v o) rfl rfl ?_ (fun _ _ _ was => was) ?_ ?_,
      ⟨proceeds.names, proceeds.pins, proceeds.holdsOn.trans (holdsOn_giving w₁ v o),
        proceeds.documents⟩, ?_⟩
    · rintro ⟨view', found', same⟩
      obtain ⟨view'', found'', store, -⟩ := view_giving w₁ v o found'
      exact ⟨view'', found'', store.trans same⟩
    · intro p path' effect' now
      by_cases new : p = o
      · subst new
        obtain ⟨-, rfl⟩ := last.unique now
        exact .inr suits₁
      · exact .inl ⟨new, now⟩
    · rintro p rfl
      exact ⟨path, effect, last, isKind⟩
    · rintro p same
      obtain rfl := Except.ok.inj same
      have same : (w₁.giving v o).views = (w.giving v o).views := by rw [giving, giving, views]
      exact ⟨last, same⟩

end Observing

section Opening

theorem ViewOptions.contains_cells {code : Computed κ → Prop} {listed : ObserverId → Prop}
    {options : ViewOptions κ} (each : ∀ c ∈ options.computed, code c.2) :
    options.cells.Contains code listed := by
  suffices ∀ (computed : List (String × Computed κ)) (s : Store (Computed κ)),
      s.Contains code listed → (∀ c ∈ computed, code c.2) →
        (computed.foldl (fun s c => s.defineComputed c.1 c.2) s).Contains code listed from
    this options.computed _ (Store.contains_ofValue options.data) each
  intro computed
  induction computed with
  | nil => exact fun s contains _ => contains
  | cons c rest ih =>
    intro s contains each
    exact ih _ (contains.defineComputed c.1 (each c List.mem_cons_self)) fun c' member =>
      each c' (List.mem_cons_of_mem c member)

/-- The world in which a view has been made and is yet to be compiled. -/
def World.opened (w : World κ) (options : ViewOptions κ) (mount : Option NodeRef) : World κ :=
  { w with
    stores := w.stores.push options.cells
    views := w.views.push { store := w.stores.size, methods := options.methods, mount }
    pins := .view w.views.size :: w.pins }

/-- A new view is sealed whatever the kind, for it has no observers yet. -/
theorem World.sealed_opened (intact : w.Intact) {options : ViewOptions κ} {mount : Option NodeRef}
    (mounted : ∀ target, mount = some target → w.Inside target)
    (computed : ∀ c ∈ options.computed, c.2.Scoped w.stores.size w.views.size) :
    (w.opened options mount).Sealed { store := w.stores.size } w.views.size kind := by
  refine ⟨?_, ⟨_, Array.getElem?_push_size, rfl⟩, ⟨_, Array.getElem?_push_size, ?_⟩, nofun⟩
  · exact intact.more (accepts_making mounted rfl) rfl fun o path effect observed =>
      .inl ⟨not_false, observed⟩
  · exact ViewOptions.contains_cells computed

end Opening
end ReactiveView
