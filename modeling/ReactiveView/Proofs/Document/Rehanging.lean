import ReactiveView.Proofs.Document.Region

/-! Moving all children of a node below another one, as a view does with its mount target and a
fragment. What is reached from the other node then was reached from the one. -/
namespace ReactiveView.Document

variable {ℓ : Type} {doc doc' : Document ℓ} {a b n : NodeId}

/-- What hung below the first node hangs below the second one, and nothing else has moved. -/
structure Rehangs (a b : NodeId) (doc doc' : Document ℓ) : Prop where
  formed : doc'.WellFormed
  size : doc'.size = doc.size
  own : ∀ n, (doc'.node n).own = (doc.node n).own
  parent : ∀ n, (doc'.node n).parent =
    if (doc.node n).parent = some a then some b else (doc.node n).parent

theorem parent_placeAll {parent : NodeId} (children : List NodeId) (formed : doc.WellFormed)
    (inside : parent < doc.size) (each : ∀ c ∈ children, Placeable doc parent c) (n : NodeId) :
    ((children.foldl (fun doc c => doc.place parent c) doc).node n).parent =
      if n ∈ children then some parent else (doc.node n).parent := by
  induction children generalizing doc with
  | nil => simp
  | cons c rest ih =>
    have first := each c List.mem_cons_self
    have moved := first.relinks formed inside
    rw [List.foldl_cons, ih (first.wellFormed formed inside) (moved.size ▸ inside) fun d member =>
      first.after formed inside (each d (List.mem_cons_of_mem _ member)), moved.parent]
    by_cases first : n = c <;> by_cases later : n ∈ rest <;> simp [first, later]

/-- Appending nodes one by one to a node that they may go below places each of them. -/
theorem appendAll_eq (children : List NodeId) (formed : doc.WellFormed) (inside : b < doc.size)
    (each : ∀ c ∈ children, Placeable doc b c) :
    children.foldl (·.append b) doc = children.foldl (fun doc c => doc.place b c) doc := by
  induction children generalizing doc with
  | nil => rfl
  | cons c rest ih =>
    have first := each c List.mem_cons_self
    rw [List.foldl_cons, List.foldl_cons, append_of_placeable formed first]
    refine ih (first.wellFormed formed inside) ?_ fun d member => ?_
    · exact (first.relinks formed inside).size ▸ inside
    · exact first.after formed inside (each d (List.mem_cons_of_mem _ member))

/-- The children of a node are moved to another root. -/
theorem rehangs_appendAll (formed : doc.WellFormed) (inside : b < doc.size)
    (top : (doc.node b).parent = none) :
    Rehangs a b doc ((doc.node a).children.foldl (·.append b) doc) := by
  have each : ∀ c ∈ (doc.node a).children, Placeable doc b c := fun c =>
    placeable_of_top formed top
  rw [appendAll_eq _ formed inside each]
  refine ⟨wellFormed_placeAll _ formed inside each, size_placeAll _ _ _, own_placeAll _ _ _,
    fun n => ?_⟩
  rw [parent_placeAll _ formed inside each]
  simp only [formed.links]

/-- The children of a fragment are moved to a node that is not below it. -/
theorem rehangs_append (formed : doc.WellFormed) (inside : b < doc.size)
    (fragment : (doc.node a).kind = .fragment) (other : b ≠ a) (outside : ¬ Above doc a b) :
    Rehangs a b doc (doc.append b a) := by
  refine ⟨formed.append inside a, formed.size_append b a, formed.own_append b a, fun n => ?_⟩
  have emptied := sheds_emptyFragment formed a
  rw [append_of_fragment formed fragment other outside,
    parent_placeAll _ (emptied.wellFormed formed) (emptied.size ▸ inside)
      (fun c => placeable_emptyFragment formed outside), emptied.parent]
  simp only [formed.links]
  split <;> simp_all

/-- What is below the other node was below the one, if the other node had no children of its own. -/
theorem Rehangs.above_before (rehangs : Rehangs a b doc doc')
    (childless : ∀ n, (doc.node n).parent ≠ some b) (above : Above doc' b n) : Above doc a n := by
  induction above with
  | parent parent =>
    rw [rehangs.parent] at parent
    split at parent
    · exact .parent ‹_›
    · exact (childless _ parent).elim
  | further parent _ ih =>
    rw [rehangs.parent] at parent
    split at parent
    · exact .parent ‹_›
    · exact .further parent ih

variable {through : Node ℓ → Prop}

/-- What is reached from the other node was reached from the one, if the other node had no children
of its own. -/
theorem Rehangs.reached_before (rehangs : Rehangs a b doc doc')
    (childless : ∀ n, (doc.node n).parent ≠ some b)
    (same : ∀ n, through (doc'.node n) → through (doc.node n))
    (reached : Reached through doc' b n) :
    Reached through doc a n := by
  have before : ∀ n p, p ≠ b → (doc'.node n).parent = some p → (doc.node n).parent = some p := by
    intro n p other parent
    rw [rehangs.parent] at parent
    split at parent
    · exact (other (Option.some.inj parent).symm).elim
    · exact parent
  induction reached with
  | child parent =>
    rw [rehangs.parent] at parent
    split at parent
    · exact .child ‹_›
    · exact (childless _ parent).elim
  | further reached passes parent ih =>
    exact .further ih (same _ passes) (before _ _ (reached.above.ne rehangs.formed).symm parent)

end ReactiveView.Document
