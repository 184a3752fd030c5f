import ReactiveView.Proofs.Document.Showing

/-! Listings of subtrees in document order. In a well-formed document the listing of a node holds
the node itself and every node below it, each of them once. -/
namespace ReactiveView

theorem Branch.preorderAll_eq {ℓ : Type} (bs : List (Branch ℓ)) :
    Branch.preorderAll bs = bs.flatMap Branch.preorder := by
  induction bs with
  | nil => rfl
  | cons b rest ih => rw [Branch.preorderAll, ih, List.flatMap_cons]

namespace Document

variable {ℓ : Type} {doc : Document ℓ} {n : NodeId}

/-- The nodes of the branch at a node, cut off after so many levels. -/
def listingTo (doc : Document ℓ) (levels : Nat) (id : NodeId) : List NodeId :=
  (doc.branchTo levels id).preorder.map Prod.fst

/-- A node and all nodes below it, in document order. -/
def listing (doc : Document ℓ) (id : NodeId) : List NodeId :=
  doc.listingTo doc.size id

theorem listingTo_succ (doc : Document ℓ) (levels : Nat) (id : NodeId) :
    doc.listingTo (levels + 1) id =
      id :: (doc.node id).children.flatMap (doc.listingTo levels) := by
  simp only [listingTo, branchTo, Branch.preorder, Branch.preorderAll_eq, List.map_cons,
    List.map_flatMap, List.flatMap_map]
  rfl

theorem above_iff_child (formed : doc.WellFormed) {a : NodeId} :
    Above doc a n ↔ ∃ c ∈ (doc.node a).children, n = c ∨ Above doc c n := by
  constructor
  · intro above
    obtain ⟨c, child, lower⟩ := above.first
    exact ⟨c, (formed.links a c).mpr child, lower⟩
  · rintro ⟨c, member, rfl | above⟩
    · exact .parent ((formed.links a n).mp member)
    · exact .trans (.parent ((formed.links a c).mp member)) above

/-- The subtrees of two children of one node have no node in common. -/
theorem WellFormed.apart_below (formed : doc.WellFormed) {p c d : NodeId} (other : c ≠ d)
    (child : (doc.node c).parent = some p) (child' : (doc.node d).parent = some p)
    (below : n = c ∨ Above doc c n) (below' : n = d ∨ Above doc d n) : False := by
  rcases below with rfl | above
  · rcases below' with same | above'
    · exact other same
    · exact not_above_sibling formed child' child above'
  · rcases below' with rfl | above'
    · exact not_above_sibling formed child child' above
    · obtain same | higher | lower := above.linear above'
      · exact other same
      · exact not_above_sibling formed child child' higher
      · exact not_above_sibling formed child' child lower

theorem listing_spec (formed : doc.WellFormed) {id : NodeId} (inside : id < doc.size) :
    (∀ n, n ∈ doc.listing id ↔ n = id ∨ Above doc id n) ∧ (doc.listing id).Nodup := by
  refine formed.descend (motive := fun levels id =>
    (∀ n, n ∈ doc.listingTo levels id ↔ n = id ∨ Above doc id n) ∧
      (doc.listingTo levels id).Nodup) (fun levels id lower => ?_) inside
  rw [listingTo_succ]
  refine ⟨fun n => ?_, List.nodup_cons.mpr ⟨fun member => ?_, List.nodup_flatMap.mpr
    ⟨fun c member => (lower c member).2, ?_⟩⟩⟩
  · rw [List.mem_cons, List.mem_flatMap, above_iff_child formed]
    exact or_congr_right (exists_congr fun c => and_congr_right fun member => (lower c member).1 n)
  · obtain ⟨c, member, listed⟩ := List.mem_flatMap.mp member
    exact formed.not_above_self id
      ((above_iff_child formed).mpr ⟨c, member, ((lower c member).1 id).mp listed⟩)
  · refine (formed.distinct id).imp_of_mem fun {c d} first second other => ?_
    have child := (formed.links id c).mp first
    have child' := (formed.links id d).mp second
    exact fun n listed listed' => formed.apart_below other child child'
      (((lower c first).1 n).mp listed) (((lower d second).1 n).mp listed')

theorem mem_listing (formed : doc.WellFormed) {id : NodeId} (inside : id < doc.size) :
    n ∈ doc.listing id ↔ n = id ∨ Above doc id n :=
  (listing_spec formed inside).1 n

theorem nodup_listing (formed : doc.WellFormed) {id : NodeId} (inside : id < doc.size) :
    (doc.listing id).Nodup :=
  (listing_spec formed inside).2

/-- The root and the nodes below it. -/
def Attached (doc : Document ℓ) (n : NodeId) : Prop :=
  n = rootId ∨ Above doc rootId n

/-- How many nodes are reached from the root. -/
def population (doc : Document ℓ) : Nat :=
  (doc.listing rootId).length

theorem Attached.inside (formed : doc.WellFormed) (attached : doc.Attached n) : n < doc.size := by
  obtain rfl | above := attached
  · exact formed.inhabited
  · obtain ⟨p, parent⟩ := above.parent_eq_some
    exact inside_of_parent parent

theorem Attached.child {c : NodeId} (attached : doc.Attached n)
    (parent : (doc.node c).parent = some n) : doc.Attached c := by
  obtain rfl | above := attached
  · exact .inr (.parent parent)
  · exact .inr (.further parent above)

/-- A node of the tree is the root, or its parent is in the tree. -/
theorem Attached.parent (attached : doc.Attached n) :
    n = rootId ∨ ∃ p, (doc.node n).parent = some p ∧ doc.Attached p := by
  refine attached.imp_right fun above => ?_
  obtain ⟨p, parent⟩ := above.parent_eq_some
  exact ⟨p, parent, (above.of_parent parent).imp_left Eq.symm⟩

theorem population_le_size (formed : doc.WellFormed) : doc.population ≤ doc.size := by
  have bound := List.Nodup.length_le_of_subset (nodup_listing formed formed.inhabited)
    fun n member => List.mem_range.mpr
      (Attached.inside formed ((mem_listing formed formed.inhabited).mp member))
  rwa [List.length_range] at bound

/-- A tree that takes all slots has as many nodes as the document. -/
theorem population_of_attached (formed : doc.WellFormed)
    (attached : ∀ n < doc.size, doc.Attached n) : doc.population = doc.size := by
  refine Nat.le_antisymm (population_le_size formed) ?_
  have bound := List.Nodup.length_le_of_subset (List.nodup_range (n := doc.size))
    fun n member =>
      (mem_listing formed formed.inhabited).mpr (attached n (List.mem_range.mp member))
  rwa [List.length_range] at bound

end Document
end ReactiveView
