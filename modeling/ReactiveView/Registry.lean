/-! Registries: the observers interested in one property, in the order in which they first
registered. Entries do not keep an observer alive; those of dead observers are skipped when the
registry is read and removed when it is snapshotted. -/
namespace ReactiveView

/-- An observer, numbered in order of construction. -/
abbrev ObserverId := Nat

structure Registry where
  entries : List ObserverId := []
deriving DecidableEq

namespace Registry

/-- Adds a live observer at the end, and tells whether it was not registered already. -/
def depend (o : ObserverId) (r : Registry) : Bool × Registry :=
  if o ∈ r.entries then (false, r) else (true, ⟨r.entries ++ [o]⟩)

def prune (alive : ObserverId → Bool) (r : Registry) : Registry :=
  ⟨r.entries.filter alive⟩

/-- The live observers, in order of registration. -/
def ids (alive : ObserverId → Bool) (r : Registry) : List ObserverId :=
  r.entries.filter alive

/-- How many living observers are registered. -/
def size (alive : ObserverId → Bool) (r : Registry) : Nat :=
  r.entries.countP alive

def isEmpty (alive : ObserverId → Bool) (r : Registry) : Bool :=
  r.size alive == 0

theorem depend_fst (o : ObserverId) (r : Registry) : (r.depend o).1 = decide (o ∉ r.entries) := by
  by_cases h : o ∈ r.entries <;> simp [depend, h]

theorem mem_entries_depend {o p : ObserverId} {r : Registry} :
    p ∈ (r.depend o).2.entries ↔ p ∈ r.entries ∨ p = o := by
  by_cases h : o ∈ r.entries
  · simp only [depend, if_pos h]
    exact ⟨.inl, fun hp => hp.elim id fun same => same ▸ h⟩
  · simp [depend, h]

theorem depend_depend (o : ObserverId) (r : Registry) :
    ((r.depend o).2.depend o).2 = (r.depend o).2 := by
  have registered : o ∈ (r.depend o).2.entries := mem_entries_depend.mpr (.inr rfl)
  rw [depend, if_pos registered]

theorem ids_prune (alive : ObserverId → Bool) (r : Registry) :
    (r.prune alive).ids alive = r.ids alive := by
  simp [ids, prune]

/-- A dead observer counts for nothing. -/
theorem ids_depend {alive : ObserverId → Bool} {o : ObserverId} (dead : alive o = false)
    (r : Registry) : (r.depend o).2.ids alive = r.ids alive := by
  unfold depend
  split
  · rfl
  · simp [ids, dead]

end Registry
end ReactiveView
