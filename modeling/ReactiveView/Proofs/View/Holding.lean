import ReactiveView.View.Mount

/-! What is held: the nodes that names and running code refer to, the mount targets of living views,
and the nodes that living observers write to. None of their slots is taken for another node. -/
namespace ReactiveView.World

variable {κ : Type} {w : World κ} {v : ViewId} {view : View κ} {o : ObserverId} {ref : NodeRef}

/-- What names and running code refer to. -/
def roots (w : World κ) : Pin → Bool
  | .node ref => w.names.nodes.any (·.2 == ref) || w.pins.contains (.node ref)
  | .observer o => w.names.observers.any (·.2 == o) || w.pins.contains (.observer o)
  | .view v => w.viewAlive v

/-- There is an observer with this path and this effect. -/
def Observed (w : World κ) (o : ObserverId) (path : String) (effect : Effect κ) : Prop :=
  ∃ value, w.observers[o]? = some { path, value, effect }

theorem mem_liveViews (found : w.views[v]? = some view) (alive : w.viewAlive v = true) :
    view ∈ w.liveViews := by
  have numbered : (view, v) ∈ w.views.toList.zipIdx :=
    List.mem_zipIdx_iff_getElem?.mpr (by rwa [Array.getElem?_toList])
  exact List.mem_map.mpr ⟨(view, v), List.mem_filter.mpr ⟨numbered, alive⟩, rfl⟩

theorem any_liveViews {p : View κ → Bool} : w.liveViews.any p = true ↔
    ∃ v view, w.viewAlive v = true ∧ w.views[v]? = some view ∧ p view = true := by
  constructor
  · intro some
    obtain ⟨_, live, holds⟩ := List.any_eq_true.mp some
    obtain ⟨⟨view, v⟩, numbered, rfl⟩ := List.mem_map.mp live
    obtain ⟨there, alive⟩ := List.mem_filter.mp numbered
    have found := List.mem_zipIdx_iff_getElem?.mp there
    rw [Array.getElem?_toList] at found
    exact ⟨v, view, alive, found, holds⟩
  · rintro ⟨v, view, alive, found, holds⟩
    exact List.any_eq_true.mpr ⟨view, mem_liveViews found alive, holds⟩

theorem observerAlive_iff : w.observerAlive o = true ↔ w.roots (.observer o) = true ∨
    ∃ v view, w.viewAlive v = true ∧ w.views[v]? = some view ∧ o ∈ view.observers := by
  simp only [observerAlive, roots, Bool.or_eq_true, any_liveViews, List.contains_iff_mem]

/-- The observers of a living view are alive. -/
theorem observerAlive_of_view (found : w.views[v]? = some view) (alive : w.viewAlive v = true)
    (member : o ∈ view.observers) : w.observerAlive o = true :=
  observerAlive_iff.mpr (.inr ⟨v, view, alive, found, member⟩)

theorem mem_liveTargets {observer : Observer κ} (found : w.observers[o]? = some observer)
    (alive : w.observerAlive o = true) (target : observer.effect.target? = some ref) :
    ref ∈ w.liveTargets := by
  have numbered : (observer, o) ∈ w.observers.toList.zipIdx :=
    List.mem_zipIdx_iff_getElem?.mpr (by rwa [Array.getElem?_toList])
  exact List.mem_filterMap.mpr ⟨(observer, o), List.mem_filter.mpr ⟨numbered, alive⟩, target⟩

theorem mem_liveTargets_iff : ref ∈ w.liveTargets ↔ ∃ o path effect,
    w.observerAlive o = true ∧ w.Observed o path effect ∧ effect.target? = some ref := by
  constructor
  · intro member
    obtain ⟨⟨⟨path, value, effect⟩, o⟩, numbered, target⟩ := List.mem_filterMap.mp member
    obtain ⟨there, alive⟩ := List.mem_filter.mp numbered
    have found := List.mem_zipIdx_iff_getElem?.mp there
    rw [Array.getElem?_toList] at found
    exact ⟨o, path, effect, alive, ⟨value, found⟩, target⟩
  · rintro ⟨o, path, effect, alive, ⟨value, found⟩, target⟩
    exact mem_liveTargets found alive target

theorem held_iff : w.held ref = true ↔ w.roots (.node ref) = true ∨
    (∃ v view, w.viewAlive v = true ∧ w.views[v]? = some view ∧ view.mount = some ref) ∨
    ∃ o path effect, w.observerAlive o = true ∧ w.Observed o path effect ∧
      effect.target? = some ref := by
  simp only [held, roots, Bool.or_eq_true, any_liveViews, List.contains_iff_mem,
    mem_liveTargets_iff, beq_iff_eq, or_assoc]

/-- What an observer of a living view writes to is held. -/
theorem held_target {observer : Observer κ} (found : w.views[v]? = some view)
    (alive : w.viewAlive v = true) (member : o ∈ view.observers)
    (observed : w.observers[o]? = some observer) (target : observer.effect.target? = some ref) :
    w.held ref = true :=
  held_iff.mpr (.inr (.inr ⟨o, observer.path, observer.effect,
    observerAlive_of_view found alive member, ⟨observer.value, observed⟩, target⟩))

theorem held_mount (found : w.views[v]? = some view) (alive : w.viewAlive v = true)
    (mount : view.mount = some ref) : w.held ref = true :=
  held_iff.mpr (.inr (.inl ⟨v, view, alive, found, mount⟩))

theorem held_pinned (pinned : .node ref ∈ w.pins) : w.held ref = true := by
  simp only [held, List.contains_iff_mem.mpr pinned, Bool.or_true, Bool.true_or]

theorem viewAlive_pinned (pinned : .view v ∈ w.pins) : w.viewAlive v = true := by
  simp only [viewAlive, List.contains_iff_mem.mpr pinned, Bool.or_true]

end ReactiveView.World
