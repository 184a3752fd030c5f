import ReactiveView.Proofs.Session.Commands

/-! A view that is being made is known to nobody. Until it has been made no name of it is
given, and none of its observers, so that a view that cannot be bound is dead together with all
its observers. -/
namespace ReactiveView

open Session Run

variable {κ : Type}

namespace Session

variable {name : String} {names : Names} {entity : Entity}

theorem named_of_set {α : Type} {a b : α} {table : List (String × α)}
    (member : b ∈ (Entries.set name a table).map (·.2)) : a = b ∨ b ∈ table.map (·.2) := by
  obtain ⟨entry, listed, rfl⟩ := List.mem_map.mp member
  exact (Entries.mem_set listed).imp Eq.symm (List.mem_map_of_mem ·)

/-- A name is new, or it was there before. -/
theorem views_bind {v : ViewId} (member : v ∈ (entity.bind name names).views.map (·.2)) :
    entity = .view v ∨ v ∈ names.views.map (·.2) := by
  cases entity with
  | view u => exact (named_of_set member).imp_left (congrArg Entity.view)
  | _ => exact .inr member

theorem weakViews_bind {v : ViewId} (member : v ∈ (entity.bind name names).weakViews.map (·.2)) :
    entity = .weakView v ∨ v ∈ names.weakViews.map (·.2) := by
  cases entity with
  | weakView u => exact (named_of_set member).imp_left (congrArg Entity.weakView)
  | _ => exact .inr member

theorem observers_bind {o : ObserverId}
    (member : o ∈ (entity.bind name names).observers.map (·.2)) :
    entity = .observer o ∨ o ∈ names.observers.map (·.2) := by
  cases entity with
  | observer p => exact (named_of_set member).imp_left (congrArg Entity.observer)
  | _ => exact .inr member

end Session

namespace World

variable {w w' : World κ} {v : ViewId} {o : ObserverId}

theorem viewAlive_iff :
    w.viewAlive v = true ↔ v ∈ w.names.views.map (·.2) ∨ .view v ∈ w.pins := by
  simp only [viewAlive, Bool.or_eq_true, List.any_eq_true, beq_iff_eq, List.contains_iff_mem,
    List.mem_map]

theorem observerAlive_iff_named : w.observerAlive o = true ↔
    o ∈ w.names.observers.map (·.2) ∨ .observer o ∈ w.pins ∨
      ∃ v view, w.viewAlive v = true ∧ w.views[v]? = some view ∧ o ∈ view.observers := by
  simp only [observerAlive_iff, World.roots, Bool.or_eq_true, List.any_eq_true, beq_iff_eq,
    List.contains_iff_mem, List.mem_map, or_assoc]

/-- Whatever is referred to is there. -/
structure Numbered (w : World κ) : Prop where
  views : ∀ v ∈ w.names.views.map (·.2), v < w.views.size
  weakViews : ∀ v ∈ w.names.weakViews.map (·.2), v < w.views.size
  observers : ∀ o ∈ w.names.observers.map (·.2), o < w.observers.size
  pinnedViews : ∀ v, .view v ∈ w.pins → v < w.views.size
  pinnedObservers : ∀ o, .observer o ∈ w.pins → o < w.observers.size
  listed : ∀ (v : ViewId) view, w.views[v]? = some view → ∀ o ∈ view.observers, o < w.observers.size

theorem numbered_start : ({} : World κ).Numbered :=
  ⟨nofun, nofun, nofun, nofun, nofun, nofun⟩

namespace Numbered

variable (numbered : w.Numbered)
include numbered

theorem lt_of_viewAlive (alive : w.viewAlive v = true) : v < w.views.size :=
  (viewAlive_iff.mp alive).elim (numbered.views v) (numbered.pinnedViews v)

theorem lt_of_observerAlive (alive : w.observerAlive o = true) : o < w.observers.size := by
  obtain named | pinned | ⟨v, view, -, found, own⟩ := observerAlive_iff_named.mp alive
  · exact numbered.observers o named
  · exact numbered.pinnedObservers o pinned
  · exact numbered.listed v view found o own

theorem pinning {pins : List Pin} (reached : ∀ pin ∈ pins, w.Reaches pin) :
    ({ w with pins := pins ++ w.pins } : World κ).Numbered where
  views := numbered.views
  weakViews := numbered.weakViews
  observers := numbered.observers
  pinnedViews v pin := (List.mem_append.mp pin).elim
    (fun new => numbered.lt_of_viewAlive (reached _ new)) (numbered.pinnedViews v)
  pinnedObservers o pin := (List.mem_append.mp pin).elim
    (fun new => numbered.lt_of_observerAlive (reached _ new)) (numbered.pinnedObservers o)
  listed := numbered.listed

theorem unpinning {more pins : List Pin} (pinned : w.pins = more ++ pins) :
    ({ w with pins } : World κ).Numbered where
  views := numbered.views
  weakViews := numbered.weakViews
  observers := numbered.observers
  pinnedViews v pin := numbered.pinnedViews v (pinned ▸ List.mem_append_right more pin)
  pinnedObservers o pin := numbered.pinnedObservers o (pinned ▸ List.mem_append_right more pin)
  listed := numbered.listed

theorem watching (observer : Observer κ) :
    ({ w with
      observers := w.observers.push observer
      pins := [.observer w.observers.size] ++ w.pins } : World κ).Numbered where
  views := numbered.views
  weakViews := numbered.weakViews
  observers o named := by simpa using Nat.lt_succ_of_lt (numbered.observers o named)
  pinnedViews v pin := numbered.pinnedViews v ((List.mem_cons.mp pin).resolve_left nofun)
  pinnedObservers o pin := by
    rw [Array.size_push]
    obtain same | pin := List.mem_cons.mp pin
    · cases same
      exact Nat.lt_succ_self _
    · exact Nat.lt_succ_of_lt (numbered.pinnedObservers o pin)
  listed v view found o own := by
    simpa using Nat.lt_succ_of_lt (numbered.listed v view found o own)

theorem making (view : View κ) (none : view.observers = []) :
    ({ w with
      views := w.views.push view
      pins := [.view w.views.size] ++ w.pins } : World κ).Numbered where
  views v named := by simpa using Nat.lt_succ_of_lt (numbered.views v named)
  weakViews v named := by simpa using Nat.lt_succ_of_lt (numbered.weakViews v named)
  observers := numbered.observers
  pinnedViews v pin := by
    rw [Array.size_push]
    obtain same | pin := List.mem_cons.mp pin
    · cases same
      exact Nat.lt_succ_self _
    · exact Nat.lt_succ_of_lt (numbered.pinnedViews v pin)
  pinnedObservers o pin := numbered.pinnedObservers o ((List.mem_cons.mp pin).resolve_left nofun)
  listed v view' found o own :=
    numbered.listed v view' (Passage.mem_made none found own) o own

theorem keeping (inside : o < w.observers.size) (v : ViewId) :
    ({ w with views := w.views.modify v fun view =>
      { view with observers := view.observers ++ [o] } } : World κ).Numbered where
  views := by simpa using numbered.views
  weakViews := by simpa using numbered.weakViews
  observers := numbered.observers
  pinnedViews := by simpa using numbered.pinnedViews
  pinnedObservers := numbered.pinnedObservers
  listed u view' found p own := by
    obtain ⟨view, was, own⟩ | ⟨-, rfl⟩ := Passage.mem_kept found own
    · exact numbered.listed u view was p own
    · exact inside

omit numbered in
theorem naming (numbered : w.Numbered) (numbered' : w'.Numbered)
    (sizes : w.views.size ≤ w'.views.size ∧ w.observers.size ≤ w'.observers.size) (name : String)
    {entity : Entity} (granted : w.Grants w' entity) :
    ({ w' with names := entity.bind name w'.names } : World κ).Numbered where
  views v named := by
    obtain rfl | named := views_bind named
    · obtain ⟨-, inside⟩ | ⟨alive, -⟩ := granted
      · exact inside
      · exact Nat.lt_of_lt_of_le (numbered.lt_of_viewAlive alive) sizes.1
    · exact numbered'.views v named
  weakViews v named := by
    obtain rfl | named := weakViews_bind named
    · exact Nat.lt_of_lt_of_le (numbered.views v granted) sizes.1
    · exact numbered'.weakViews v named
  observers o named := by
    obtain rfl | named := observers_bind named
    · obtain ⟨-, inside, -⟩ | ⟨alive, -⟩ := granted
      · exact inside
      · exact Nat.lt_of_lt_of_le (numbered.lt_of_observerAlive alive) sizes.2
    · exact numbered'.observers o named
  pinnedViews := numbered'.pinnedViews
  pinnedObservers := numbered'.pinnedObservers
  listed := numbered'.listed

/-- No passage refers to what is not there. -/
theorem passage (passage : Passage w w') : w'.Numbered := by
  induction passage with
  | plain names pins views size _ =>
    obtain ⟨a, b, c, d, e, f⟩ := numbered
    exact ⟨by simpa only [names, views] using a, by simpa only [names, views] using b,
      by simpa only [names, size] using c, by simpa only [pins, views] using d,
      by simpa only [pins, size] using e, by simpa only [views, size] using f⟩
  | trans _ _ first later => exact later (first numbered)
  | pinned reached inner ih => exact (ih (numbered.pinning reached)).unpinning inner.pins
  | fired new old _ =>
    exact ⟨numbered.views, numbered.weakViews, numbered.observers, numbered.pinnedViews,
      numbered.pinnedObservers, numbered.listed⟩
  | watched observer inner ih => exact (ih (numbered.watching observer)).unpinning inner.pins
  | kept observer v inner ih =>
    have grown := inner.sizes.2
    rw [Array.size_push] at grown
    exact ((ih (numbered.watching observer)).unpinning inner.pins).keeping grown v
  | made view none inner ih => exact (ih (numbered.making view none)).unpinning inner.pins
  | named name entity granted inner ih =>
    exact numbered.naming (ih numbered) inner.sizes name granted
  | unnamed fewerViews fewerWeak fewerObservers =>
    refine ⟨fun v named => numbered.views v ?_, fun v named => numbered.weakViews v ?_,
      fun o named => numbered.observers o ?_, numbered.pinnedViews, numbered.pinnedObservers,
      numbered.listed⟩
    · exact List.map_subset _ fewerViews named
    · exact List.map_subset _ fewerWeak named
    · exact List.map_subset _ fewerObservers named

end Numbered

/-- The view is there and has no name of either kind. -/
def Unnamed (v : ViewId) (w : World κ) : Prop :=
  v < w.views.size ∧ v ∉ w.names.views.map (·.2) ∧ v ∉ w.names.weakViews.map (·.2)

theorem Unnamed.making (unnamed : w.Unnamed v) (view : View κ) :
    ({ w with
      views := w.views.push view
      pins := [.view w.views.size] ++ w.pins } : World κ).Unnamed v :=
  ⟨by simpa using Nat.lt_succ_of_lt unnamed.1, unnamed.2⟩

/-- Names are given to new views and to views that are known by some name. -/
theorem Unnamed.passage (unnamed : w.Unnamed v) (passage : Passage w w') : w'.Unnamed v := by
  induction passage with
  | plain names _ views => exact ⟨views ▸ unnamed.1, names ▸ unnamed.2⟩
  | trans _ _ first later => exact later (first unnamed)
  | pinned _ _ ih => exact ih unnamed
  | fired new old _ => exact unnamed
  | watched observer _ ih => exact ih unnamed
  | kept observer u _ ih => exact ⟨by simpa using (ih unnamed).1, (ih unnamed).2⟩
  | made view _ _ ih => exact ih (unnamed.making view)
  | named name entity granted _ ih =>
    obtain ⟨inside, view, weakView⟩ := ih unnamed
    refine ⟨inside, fun named => ?_, fun named => ?_⟩
    · obtain rfl | named := views_bind named
      · obtain ⟨rfl, -⟩ | ⟨-, weak⟩ := granted
        · exact Nat.lt_irrefl _ unnamed.1
        · exact unnamed.2.2 weak
      · exact view named
    · obtain rfl | named := weakViews_bind named
      · exact unnamed.2.1 granted
      · exact weakView named
  | unnamed fewerViews fewerWeak _ =>
    exact ⟨unnamed.1, fun named => unnamed.2.1 (List.map_subset _ fewerViews named),
      fun named => unnamed.2.2 (List.map_subset _ fewerWeak named)⟩

/-- An observer that was there before has a name from before, or it belonged to a view
that had one. -/
theorem Passage.named_before (passage : Passage w w') (unnamed : w.Unnamed v)
    (old : o < w.observers.size) (named : o ∈ w'.names.observers.map (·.2)) :
    o ∈ w.names.observers.map (·.2) ∨
      ∃ (u : ViewId) (view : View κ), u ≠ v ∧ w.views[u]? = some view ∧ o ∈ view.observers := by
  induction passage with
  | plain names => exact .inl (names ▸ named)
  | trans first _ ih ih' =>
    obtain named | ⟨u, view, other, found, own⟩ :=
      ih' (unnamed.passage first) (Nat.lt_of_lt_of_le old first.sizes.2) named
    · exact ih unnamed old named
    · obtain ⟨view', found', own'⟩ := first.listed_before old found own
      exact .inr ⟨u, view', other, found', own'⟩
  | pinned _ _ ih => exact ih unnamed old named
  | fired new old _ => exact .inl named
  | watched observer _ ih => exact ih unnamed (by simpa using Nat.lt_succ_of_lt old) named
  | kept observer u _ ih => exact ih unnamed (by simpa using Nat.lt_succ_of_lt old) named
  | made view none _ ih =>
    obtain named | ⟨u, view', other, found, own⟩ := ih (unnamed.making view) old named
    · exact .inl named
    · exact .inr ⟨u, view', other, mem_made none found own, own⟩
  | named name entity granted _ ih =>
    obtain rfl | named := observers_bind named
    · obtain ⟨rfl, -⟩ | ⟨-, u, known, view, found, own⟩ := granted
      · exact (Nat.lt_irrefl _ old).elim
      · refine .inr ⟨u, view, ?_, found, own⟩
        rintro rfl
        exact unnamed.2.1 known
    · exact ih unnamed old named
  | unnamed _ _ fewerObservers => exact .inl (List.map_subset _ fewerObservers named)

/-- The observers of the view have no names, and belong to no other view. -/
def Secret (v : ViewId) (w : World κ) : Prop :=
  ∀ view o, w.views[v]? = some view → o ∈ view.observers → o ∉ w.names.observers.map (·.2) ∧
    ∀ (u : ViewId) other, u ≠ v → w.views[u]? = some other → o ∉ other.observers

theorem Secret.passage (secret : w.Secret v) (numbered : w.Numbered) (unnamed : w.Unnamed v)
    (passage : Passage w w') : w'.Secret v := by
  induction passage with
  | plain names _ views => simpa only [Secret, names, views] using secret
  | trans first _ ih ih' =>
    exact ih' (ih secret numbered unnamed) (numbered.passage first) (unnamed.passage first)
  | pinned reached _ ih => exact ih secret (numbered.pinning reached) unnamed
  | fired new old _ => exact secret
  | watched observer _ ih => exact ih secret (numbered.watching observer) unnamed
  | @kept w w' observer u inner ih =>
    have before := ih secret (numbered.watching observer) unnamed
    have unlisted : ∀ (u : ViewId) view, w'.views[u]? = some view →
        w.observers.size ∉ view.observers := by
      intro u view found own
      obtain ⟨view', found', own'⟩ := inner.listed_before (by simp) found own
      exact Nat.lt_irrefl _ (numbered.listed u view' found' _ own')
    intro view' o found own
    obtain ⟨view, was, own⟩ | ⟨rfl, rfl⟩ := Passage.mem_kept found own
    · obtain ⟨noName, others⟩ := before view o was own
      refine ⟨noName, fun u' other apart found' own' => ?_⟩
      obtain ⟨other', was', own'⟩ | ⟨-, rfl⟩ := Passage.mem_kept found' own'
      · exact others u' other' apart was' own'
      · exact unlisted v view was own
    · constructor
      · intro named
        obtain named | ⟨u', view, -, found, own⟩ := inner.named_before unnamed (by simp) named
        · exact Nat.lt_irrefl _ (numbered.observers _ named)
        · exact Nat.lt_irrefl _ (numbered.listed u' view found _ own)
      · intro u' other apart found' own'
        obtain ⟨other', was', own'⟩ | ⟨rfl, -⟩ := Passage.mem_kept found' own'
        · exact unlisted u' other' was' own'
        · exact apart rfl
  | made view none _ ih =>
    refine ih (fun view' o found own => ?_) (numbered.making view none) (unnamed.making view)
    obtain ⟨noName, others⟩ := secret view' o (Passage.mem_made none found own) own
    exact ⟨noName, fun u other apart found' own' =>
      others u other apart (Passage.mem_made none found' own') own'⟩
  | named name entity granted inner ih =>
    intro view o found own
    obtain ⟨noName, others⟩ := ih secret numbered unnamed view o found own
    refine ⟨fun named => ?_, others⟩
    obtain rfl | named := observers_bind named
    · obtain ⟨rfl, -, loose⟩ | ⟨alive, u, known, owner, found', own'⟩ := granted
      · obtain ⟨view', found', own'⟩ := loose v view found own
        exact Nat.lt_irrefl _ (numbered.listed v view' found' _ own')
      · have apart : u ≠ v := by
          rintro rfl
          exact unnamed.2.1 known
        obtain ⟨view', was, own⟩ :=
          inner.listed_before (numbered.lt_of_observerAlive alive) found own
        exact (secret view' o was own).2 u owner apart found' own'
    · exact noName named
  | unnamed _ _ fewerObservers =>
    intro view o found own
    obtain ⟨noName, others⟩ := secret view o found own
    exact ⟨fun named => noName (List.map_subset _ fewerObservers named), others⟩

/-- The view and all its observers are dead. -/
def Gone (w : World κ) (v : ViewId) : Prop :=
  w.viewAlive v = false ∧
    ∃ view, w.views[v]? = some view ∧ ∀ o ∈ view.observers, w.observerAlive o = false

end World

open World

/-- A view that cannot be bound is gone, whatever the user code did that ran meanwhile. -/
theorem gone_of_create_error {perform : Performer κ} (calls : ∀ c, Keeps Passage (perform c))
    {levels : Nat} {options : ViewOptions κ} {w w' : World κ} {e : BindingError}
    (numbered : w.Numbered)
    (failed : View.create perform levels options w = some (.error e, w')) :
    w'.Gone w.views.size := by
  obtain ⟨mount, inner, answer, -, -, -, rfl, compiled⟩ := View.create_eq_some failed
  have passage := View.passage_compile calls _ _ _ _ _ compiled
  let filled : World κ := { w with stores := w.stores.push options.cells }
  let view : View κ := { store := w.stores.size, methods := options.methods, mount }
  let start : World κ :=
    { filled with views := w.views.push view, pins := [.view w.views.size] ++ w.pins }
  have filling : filled.Numbered := numbered.passage (.plain rfl rfl rfl rfl rfl)
  have numbered₀ : start.Numbered := filling.making view rfl
  have fresh : w.views.size ∉ w.names.views.map (·.2) := fun named =>
    Nat.lt_irrefl _ (numbered.views _ named)
  have unnamed : start.Unnamed w.views.size :=
    ⟨by simp [start], fresh, fun named => Nat.lt_irrefl _ (numbered.weakViews _ named)⟩
  have none : ∀ view' o, start.views[w.views.size]? = some view' → o ∉ view'.observers := by
    intro view' o found own
    obtain rfl := Option.some.inj (Array.getElem?_push_size.symm.trans found)
    cases own
  have secret : inner.Secret w.views.size :=
    Secret.passage (fun view' o found own =>
      (none view' o found own).elim) numbered₀ unnamed passage
  have dead : World.viewAlive { inner with pins := w.pins } w.views.size = false := by
    apply Bool.eq_false_iff.mpr
    intro alive
    obtain named | pinned := viewAlive_iff.mp alive
    · exact (unnamed.passage passage).2.1 named
    · exact Nat.lt_irrefl _ (numbered.pinnedViews _ pinned)
  have inside : w.views.size < inner.views.size := (unnamed.passage passage).1
  have found := Array.getElem?_eq_getElem inside
  refine ⟨dead, inner.views[w.views.size], found, fun o own =>
    Bool.eq_false_iff.mpr fun alive => ?_⟩
  obtain ⟨noName, others⟩ := secret _ o found own
  obtain named | pinned | ⟨u, other, live, listed, own'⟩ := observerAlive_iff_named.mp alive
  · exact noName named
  · obtain ⟨view', before, own'⟩ :=
      passage.listed_before (numbered.pinnedObservers o pinned) found own
    exact none view' o before own'
  · refine others u other ?_ listed own'
    rintro rfl
    exact Bool.false_ne_true (dead.symm.trans live)

end ReactiveView
