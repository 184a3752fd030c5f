import ReactiveView.Proofs.Document.Listing

/-! The nodes that a walk visits, in document order: those below a node, where elements are passed
and whatever else there is below other nodes is not seen. -/
namespace ReactiveView

mutual

/-- The node, and the nodes below it if it is an element. -/
def Branch.walk {ℓ : Type} : Branch ℓ → List NodeId
  | .mk id node children => id :: if node.kind = .element then walkAll children else []

def Branch.walkAll {ℓ : Type} : List (Branch ℓ) → List NodeId
  | [] => []
  | b :: rest => b.walk ++ walkAll rest

end

mutual

theorem Branch.walk_sublist {ℓ : Type} : (b : Branch ℓ) → b.walk.Sublist (b.preorder.map Prod.fst)
  | .mk id node children => by
    rw [walk, preorder, List.map_cons]
    refine .cons_cons id ?_
    split
    · exact walkAll_sublist children
    · exact List.nil_sublist _

theorem Branch.walkAll_sublist {ℓ : Type} :
    (bs : List (Branch ℓ)) → (walkAll bs).Sublist ((preorderAll bs).map Prod.fst)
  | [] => List.nil_sublist _
  | b :: rest => by
    rw [walkAll, preorderAll, List.map_append]
    exact (walk_sublist b).append (walkAll_sublist rest)

end

namespace Document

variable {ℓ : Type} {doc doc' : Document ℓ} {t n : NodeId}

/-- What a walk visits below a node. -/
def walk (doc : Document ℓ) (t : NodeId) : List NodeId :=
  Branch.walkAll (doc.branch t).children

/-- A walk over siblings visits these nodes. -/
inductive Visits (doc : Document ℓ) : List NodeId → List NodeId → Prop
  | none : Visits doc [] []
  | element {n : NodeId} {rest below later : List NodeId} : (doc.node n).kind = .element →
      Visits doc (doc.node n).children below → Visits doc rest later →
      Visits doc (n :: rest) (n :: below ++ later)
  | other {n : NodeId} {rest later : List NodeId} : (doc.node n).kind ≠ .element →
      Visits doc rest later → Visits doc (n :: rest) (n :: later)

/-- As long as the visited nodes keep their kinds and their children, nothing else is visited. -/
theorem Visits.congr {ns visited : List NodeId} (visits : Visits doc ns visited)
    (same : ∀ n ∈ visited, (doc'.node n).kind = (doc.node n).kind ∧
      (doc'.node n).children = (doc.node n).children) : Visits doc' ns visited := by
  induction visits with
  | none => exact .none
  | @element n rest below later isElement _ _ ihBelow ihRest =>
    obtain ⟨kind, children⟩ := same n List.mem_cons_self
    refine .element (kind.trans isElement) (children ▸ ihBelow fun m member => ?_)
      (ihRest fun m member => ?_)
    · exact same m (List.mem_cons_of_mem _ (List.mem_append_left _ member))
    · exact same m (List.mem_cons_of_mem _ (List.mem_append_right _ member))
  | other notElement _ ih =>
    obtain ⟨kind, -⟩ := same _ List.mem_cons_self
    exact .other (kind ▸ notElement) (ih fun m member => same m (List.mem_cons_of_mem _ member))

theorem visits_walk (formed : doc.WellFormed) (inside : t < doc.size) :
    Visits doc (doc.node t).children (doc.walk t) := by
  refine formed.descend (motive := fun levels n =>
    Visits doc (doc.node n).children (Branch.walkAll (doc.branchTo levels n).children))
    (fun levels n lower => ?_) inside
  show Visits doc _ (Branch.walkAll ((doc.node n).children.map (doc.branchTo levels)))
  generalize (doc.node n).children = listed at lower
  induction listed with
  | nil => exact .none
  | cons c rest ih =>
    have later := ih fun c' member => lower c' (List.mem_cons_of_mem c member)
    rw [List.map_cons, Branch.walkAll, branchTo_eq, Branch.walk]
    split
    · rename_i isElement
      exact .element isElement (lower c List.mem_cons_self) later
    · rename_i notElement
      exact .other notElement later

theorem walk_sublist (doc : Document ℓ) (t : NodeId) :
    (t :: doc.walk t).Sublist (doc.listing t) := by
  rw [listing, listingTo, branchTo_eq, Branch.preorder, List.map_cons]
  exact .cons_cons t (Branch.walkAll_sublist _)

/-- No node is visited twice, and only nodes below are visited. -/
theorem walk_spec (formed : doc.WellFormed) (inside : t < doc.size) :
    (doc.walk t).Nodup ∧ ∀ n ∈ doc.walk t, Above doc t n := by
  have once := (walk_sublist doc t).nodup (nodup_listing formed inside)
  refine ⟨(List.nodup_cons.mp once).2, fun n member => ?_⟩
  have listed := (walk_sublist doc t).subset (List.mem_cons_of_mem t member)
  refine ((mem_listing formed inside).mp listed).resolve_left ?_
  rintro rfl
  exact (List.nodup_cons.mp once).1 member

end Document
end ReactiveView
