import ReactiveView.Proofs.View.Effects

/-! Writes to the data of a bound view. Whatever a write makes stale is shown by an observer that is
told of the write, and when the last of them has been updated the document is as the data says. -/
namespace ReactiveView

variable {κ : Type}

namespace Store

variable {s t : Store (Computed κ)} {c : CellId} {v : Value}

/-- A path to an object reads as an object. -/
theorem read_namesObject (plain : s.Plain) {path : String} (notBlank : Path.isEmpty path = false)
    (names : s.NamesObject path) : ∃ fields, s.read path = .ok (.object fields) := by
  obtain ⟨id, keys, found, object⟩ := names
  obtain ⟨fields, value⟩ := valueOf_object object
  exact ⟨fields, by rw [read_cellAt? plain notBlank found, handleOf_object object, value]⟩

theorem notBlank_of_read {path : String} {u : Value} (read : s.read path = .ok u) :
    Path.isEmpty path = false := by
  cases blank : Path.isEmpty path with
  | true => cases (read_blank blank).symm.trans read
  | false => rfl

/-- A path that does not pass the written cell is shown as before. -/
theorem Overwrites.alike_elsewhere (wrote : Overwrites s t c v) (plain : s.Plain)
    (notRoot : c ≠ s.root) {path : String} (elsewhere : c ∉ s.cellsAt path) {u : Value}
    (read : s.read path = .ok u) : ∃ u', t.read path = .ok u' ∧ Value.Alike u u' := by
  by_cases names : s.NamesObject path
  · have notBlank := notBlank_of_read read
    have still := wrote.namesObject_elsewhere plain notRoot elsewhere names
    obtain ⟨fields, before⟩ := read_namesObject plain notBlank names
    obtain ⟨fields', after⟩ := read_namesObject (wrote.plain plain) notBlank still
    obtain rfl := Except.ok.inj (before.symm.trans read)
    exact ⟨_, after, ⟨rfl, rfl⟩⟩
  · exact ⟨u, (wrote.read_elsewhere plain notRoot elsewhere names).trans read, .refl u⟩

/-- Overwriting registers nobody. -/
theorem registered_before {alive : ObserverId → Bool} {id : CellId} {o : ObserverId}
    (registered : o ∈ ((s.overwrite c v alive).registry id).entries) :
    o ∈ (s.registry id).entries := by
  rw [registry_overwrite] at registered
  split at registered
  · rename_i here
    exact here.1 ▸ (List.mem_filter.mp registered).1
  · exact registered

end Store

namespace Bindings

open Run

variable {b : Bindings κ} {perform : Performer κ} {exempt : NodeId → Prop}
  {pending : ObserverId → Prop} {w w' : World κ} {s : Store (Computed κ)}
  {doc : Document (Listener κ)} {o : ObserverId}

/-- Lagging behind is not due to an observer that shows the current value. -/
theorem Lags.resolve {n : NodeId} (lags : b.Lags (fun p => p = o ∨ pending p) w s n)
    {observer : Observer κ} (found : w.observers[o]? = some observer) (current : observer.Shown s) :
    b.Lags pending w s n := by
  obtain ⟨p, member, pends, showing, stale⟩ := lags
  refine ⟨p, member, pends.resolve_left ?_, showing, stale⟩
  rintro rfl
  exact stale observer found current

/-- What an observer keeps is no matter to a node that it does not show. -/
theorem Lags.observe {n : NodeId} (lags : b.Lags (fun p => p = o ∨ pending p) w s n)
    (unseen : ¬ b.Shows o n) (new : Value) (journal : List Firing) : b.Lags pending { w with
      observers := w.observers.modify o fun observer => { observer with value := new }
      journal := journal } s n := by
  obtain ⟨p, member, pends, showing, stale⟩ := lags
  have other : o ≠ p := fun same => unseen (same ▸ showing)
  refine ⟨p, member, pends.resolve_left (Ne.symm other), showing, fun observer found => ?_⟩
  exact stale observer (by simpa [Array.getElem?_modify, other] using found)

/-- An observer whose value is equal to the current one has nothing to do. -/
theorem Upheld.skip (upheld : b.Upheld exempt (fun p => p = o ∨ pending p) w s doc)
    {observer : Observer κ} (found : w.observers[o]? = some observer) (current : observer.Shown s) :
    b.Upheld exempt pending w s doc where
  view := upheld.view
  named := upheld.named
  here := upheld.here
  plain := upheld.plain
  sound := upheld.sound
  exact := upheld.exact
  subscribed := upheld.subscribed
  observers p member := by
    obtain ⟨observer', observes, current'⟩ := upheld.observers p member
    refine ⟨observer', observes, ?_⟩
    obtain (rfl | pends) | shown := current'
    · obtain rfl := Option.some.inj (found.symm.trans observes.found)
      exact .inr current
    · exact .inl pends
    · exact .inr shown
  there := upheld.there
  formed := upheld.formed
  inside := upheld.inside
  nodes := upheld.nodes
  texts n t bound := (upheld.texts n t bound).imp_right (Or.imp_left (·.resolve found current))
  fields n path bound only :=
    (upheld.fields n path bound only).imp_right (Or.imp_left (·.resolve found current))

/-- An observer keeps the current value before its effect writes to the node that it shows. -/
theorem Upheld.observe (upheld : b.Upheld exempt (fun p => p = o ∨ pending p) w s doc)
    {new : Value} (read : s.read (b.path o) = .ok new)
    (journal : List Firing) : b.Upheld (fun n => exempt n ∨ b.Shows o n) pending { w with
      observers := w.observers.modify o fun observer => { observer with value := new }
      journal := journal } s doc where
  view := upheld.view
  named := upheld.named
  here := upheld.here
  plain := upheld.plain
  sound := upheld.sound
  exact := upheld.exact
  subscribed := upheld.subscribed
  observers p isMember := by
    obtain ⟨observer, observes, current⟩ := upheld.observers p isMember
    by_cases same : o = p
    · subst same
      refine ⟨{ observer with value := new }, ⟨?_, observes.path, observes.effect,
        upheld.exact.read upheld.plain read, observes.registered⟩, .inr ⟨new, ?_, .refl new⟩⟩
      · simp [Array.getElem?_modify, observes.found]
      · show s.read observer.path = _
        rw [observes.path, read]
    · refine ⟨observer, ⟨?_, observes.path, observes.effect, observes.legible,
        observes.registered⟩, current.imp_left fun pends => pends.resolve_left (Ne.symm same)⟩
      simp [Array.getElem?_modify, same, observes.found]
  there := upheld.there
  formed := upheld.formed
  inside := upheld.inside
  nodes := upheld.nodes
  texts n t bound := by
    by_cases shown : b.Shows o n
    · exact .inl (.inr shown)
    · exact (upheld.texts n t bound).imp .inl (Or.imp_left (·.observe shown new journal))
  fields n path bound only := by
    by_cases shown : b.Shows o n
    · exact .inl (.inr shown)
    · exact (upheld.fields n path bound only).imp .inl (Or.imp_left (·.observe shown new journal))

/-- An update that does not fail takes its observer off what is pending. -/
theorem Upheld.update (sane : b.Sane perform) (member : o ∈ b.made.observers)
    (upheld : b.Upheld exempt (fun p => p = o ∨ pending p) w s doc)
    (ran : updateObserver perform b.made.store o w = some (.ok (), w')) :
    ∃ doc', b.Upheld exempt pending w' s doc' := by
  obtain ⟨new, observer, known, read, result⟩ := updateObserver_eq_ok upheld.plain upheld.here ran
  obtain ⟨found, observes, -⟩ := upheld.observers o member
  obtain rfl := known found observes.found
  obtain ⟨equal, rfl⟩ | ⟨-, fired⟩ := result
  · have alike := observes.legible.alike (upheld.exact.read upheld.plain read) equal
    exact ⟨doc, upheld.skip observes.found ⟨new, read, alike⟩⟩
  · rw [observes.path] at read
    rw [observes.effect] at fired
    exact Upheld.fire sane member read (upheld.observe read _) fired

theorem Upheld.updateAll (sane : b.Sane perform) {observers : List ObserverId}
    (members : ∀ o ∈ observers, o ∈ b.made.observers)
    (upheld : b.Upheld exempt (· ∈ observers) w s doc)
    (ran : observers.forM (updateObserver perform b.made.store) w = some (.ok (), w')) :
    ∃ doc', b.Upheld exempt (fun _ => False) w' s doc' := by
  induction observers generalizing w doc with
  | nil =>
    obtain ⟨-, rfl⟩ := Prod.mk.inj (Option.some.inj ran)
    simp only [List.not_mem_nil] at upheld
    exact ⟨doc, upheld⟩
  | cons o rest ih =>
    obtain ⟨_, w₁, first, ran⟩ := bind_eq_ok ran
    simp only [List.mem_cons] at upheld
    obtain ⟨doc₁, between⟩ := Upheld.update sane (members o List.mem_cons_self) upheld first
    exact ih (fun p later => members p (List.mem_cons_of_mem _ later)) between ran

theorem Upheld.notify (sane : b.Sane perform) {observers : List ObserverId}
    (members : ∀ o ∈ observers, o ∈ b.made.observers)
    (upheld : b.Upheld exempt (· ∈ observers) w s doc)
    (ran : ReactiveView.notify perform b.made.store observers w = some (.ok (), w')) :
    ∃ doc', b.Upheld exempt (fun _ => False) w' s doc' := by
  obtain ⟨after, answer, rfl⟩ := pinning_eq_some ran
  have pinned := upheld.repin (observers.map .observer ++ w.pins)
  obtain ⟨doc', ended⟩ := pinned.updateAll sane members answer
  exact ⟨doc', ended.repin w.pins⟩

section Overwriting

variable {c : CellId} {v : Value} (upheld : b.Upheld exempt (fun _ => False) w s doc)
variable (inside : c < s.cells.size) (notRoot : c ≠ s.root)
include upheld inside notRoot

/-- An observer of the view is told of a write to a cell, or shows the data also after it. -/
theorem Upheld.told_or_shown {o : ObserverId} (member : o ∈ b.made.observers) :
    ∃ observer, b.Observes w s o observer ∧ observer.Shown s ∧
      (o ∈ ((s.registry c).prune w.observerAlive).entries ∨
        observer.Shown (s.overwrite c v w.observerAlive)) := by
  obtain ⟨observer, observes, current⟩ := upheld.observers o member
  have shown := current.resolve_left fun never => never
  refine ⟨observer, observes, shown, ?_⟩
  by_cases passes : c ∈ s.cellsAt (b.path o)
  · have alive := World.observerAlive_of_view upheld.view upheld.alive member
    exact .inl (List.mem_filter.mpr ⟨observes.registered c passes, alive⟩)
  · obtain ⟨u, read, alike⟩ := shown
    rw [← observes.path] at passes
    obtain ⟨u', read', alike'⟩ :=
      (Store.overwrites_overwrite inside v w.observerAlive).alike_elsewhere
      upheld.plain notRoot passes read
    exact .inr ⟨u', read', alike.trans alike'⟩

/-- What an observer reads comes to the same after a write to a cell, or the observer is told and
does not show the data. -/
theorem Upheld.alike_or_stale {o : ObserverId} (member : o ∈ b.made.observers) :
    (∀ u, s.read (b.path o) = .ok u → ∃ u',
      (s.overwrite c v w.observerAlive).read (b.path o) = .ok u' ∧ Value.Alike u u') ∨
    o ∈ ((s.registry c).prune w.observerAlive).entries ∧ ∀ observer,
      w.observers[o]? = some observer → ¬ observer.Shown (s.overwrite c v w.observerAlive) := by
  obtain ⟨observer, observes, ⟨u, read, alike⟩, now⟩ := upheld.told_or_shown inside notRoot member
  by_cases shown : observer.Shown (s.overwrite c v w.observerAlive)
  · obtain ⟨u', read', alike'⟩ := shown
    refine .inl fun u₁ read₁ => ⟨u', observes.path ▸ read', ?_⟩
    obtain rfl := Except.ok.inj ((observes.path ▸ read).symm.trans read₁)
    exact alike.symm.trans alike'
  · refine .inr ⟨now.resolve_right shown, fun observer' found => ?_⟩
    obtain rfl := Option.some.inj (observes.found.symm.trans found)
    exact shown

/-- A write to a cell leaves pending only the observers that are told of it. -/
theorem Upheld.overwrite (sane : b.Sane perform) (exact : v.Exact) :
    b.Upheld exempt (· ∈ ((s.registry c).prune w.observerAlive).entries)
      (w.withStore b.made.store (s.overwrite c v w.observerAlive))
      (s.overwrite c v w.observerAlive) doc := by
  have wrote := Store.overwrites_overwrite inside v w.observerAlive
  refine
    { view := upheld.view
      named := upheld.named
      here := World.stores_withStore upheld.here _
      plain := wrote.plain upheld.plain
      sound := wrote.sound upheld.sound notRoot
      exact := wrote.exact upheld.exact exact
      subscribed := fun id o registered =>
        upheld.subscribed id o (Store.registered_before registered)
      observers := fun o member => ?_
      there := upheld.there
      formed := upheld.formed
      inside := upheld.inside
      nodes := upheld.nodes
      texts := fun n t bound => ?_
      fields := fun n path bound only => ?_ }
  · obtain ⟨observer, observes, -, now⟩ := upheld.told_or_shown inside notRoot member
    have alive := World.observerAlive_of_view upheld.view upheld.alive member
    exact ⟨observer, ⟨observes.found, observes.path, observes.effect, observes.legible,
      fun a passed => Store.mem_registry_overwrite alive
        (observes.registered a (wrote.mem_cellsAt upheld.plain passed))⟩, now⟩
  · refine (upheld.texts n t bound).imp_right fun was => ?_
    have rendered := was.resolve_left fun ⟨_, _, never, _⟩ => never
    by_cases stale : ∃ o ∈ b.made.observers, b.effect o = .template b.view ⟨b.document, n⟩ t ∧
        o ∈ ((s.registry c).prune w.observerAlive).entries ∧ ∀ observer,
          w.observers[o]? = some observer → ¬ observer.Shown (s.overwrite c v w.observerAlive)
    · obtain ⟨o, member, effect, told, notShown⟩ := stale
      exact .inl ⟨o, member, told, .inr ⟨t, effect⟩, notShown⟩
    · refine .inr (Store.render_congr rendered fun path slot => ?_)
      obtain ⟨o, member, rfl, effect⟩ := sane.slots n t bound path slot
      exact (upheld.alike_or_stale inside notRoot member).resolve_right fun told =>
        stale ⟨o, member, effect, told⟩
  · refine (upheld.fields n path bound only).imp_right fun was => ?_
    obtain ⟨u, read, value⟩ := was.resolve_left fun ⟨_, _, never, _⟩ => never
    obtain ⟨o, member, rfl, effect⟩ := sane.models n bound path (by simp [only])
    obtain same | ⟨told, notShown⟩ := upheld.alike_or_stale inside notRoot member
    · obtain ⟨u', read', alike⟩ := same u read
      exact .inr ⟨u', read', value.trans alike.propertyText⟩
    · exact .inl ⟨o, member, told, .inl effect, notShown⟩

end Overwriting

/-- All observers that a write tells belong to the view. -/
theorem Upheld.told (upheld : b.Upheld exempt pending w s doc) {c : CellId} :
    ∀ o ∈ ((s.registry c).prune w.observerAlive).entries, o ∈ b.made.observers :=
  fun o told => upheld.subscribed c o (List.mem_filter.mp told).1

/-- A write to the data brings all that is shown up to date. -/
theorem Upheld.assign (sane : b.Sane perform) (upheld : b.Upheld exempt (fun _ => False) w s doc)
    {path : String} {v : Value} (exact : v.Exact) (backed : w.backs b.made.store path = true)
    (ran : Scope.assign perform { store := b.made.store } path v w = some (.ok (), w')) :
    ∃ s' doc', b.Upheld exempt (fun _ => False) w' s' doc' := by
  obtain ⟨c, found⟩ := World.cellAt?_of_backs upheld.here backed
  obtain ⟨-, rfl⟩ | ⟨-, told⟩ := Scope.assign_eq_ok perform (upheld.plain _) upheld.here found ran
  · exact ⟨s, doc, upheld⟩
  · obtain ⟨inside, notRoot⟩ := Store.cellAt?_sound upheld.sound found
    have wrote := upheld.overwrite inside notRoot sane exact
    obtain ⟨doc', ended⟩ := wrote.notify sane upheld.told told
    exact ⟨_, doc', ended⟩

end Bindings
end ReactiveView
