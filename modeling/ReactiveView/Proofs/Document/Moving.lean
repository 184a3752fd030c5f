import ReactiveView.Proofs.Document.Dropping

/-! Moving nodes. A node is appended unless it is the new parent or above it, so that no node comes
to lie below itself; a fragment stays where it is and gives its children away. -/
namespace ReactiveView.Document

variable {ℓ : Type} {doc doc' : Document ℓ}

/-- The first node is met on the way up from the second. -/
inductive Above (doc : Document ℓ) (a : NodeId) : NodeId → Prop
  | parent {n : NodeId} : (doc.node n).parent = some a → Above doc a n
  | further {n p : NodeId} : (doc.node n).parent = some p → Above doc a p → Above doc a n

theorem Above.trans {a b n : NodeId} (upper : Above doc a b) (lower : Above doc b n) :
    Above doc a n := by
  induction lower with
  | parent parent => exact .further parent upper
  | further parent _ ih => exact .further parent ih

theorem Above.parent_eq_some {a n : NodeId} (above : Above doc a n) :
    ∃ p, (doc.node n).parent = some p := by
  cases above with
  | parent parent => exact ⟨_, parent⟩
  | further parent _ => exact ⟨_, parent⟩

theorem inside_of_parent {n p : NodeId} (parent : (doc.node n).parent = some p) : n < doc.size := by
  refine Nat.lt_of_not_le fun outside => ?_
  simp [node_of_outside outside] at parent

/-- The way up was there before if no node has got a parent. -/
theorem Above.mono {a n : NodeId} (above : Above doc' a n)
    (before : ∀ n p, (doc'.node n).parent = some p → (doc.node n).parent = some p) :
    Above doc a n := by
  induction above with
  | parent parent => exact .parent (before _ _ parent)
  | further parent _ ih => exact .further (before _ _ parent) ih

/-- The way up does not depend on the parent of a node that it does not pass. -/
theorem Above.before_elsewhere {a c n : NodeId} (above : Above doc' a n)
    (same : ∀ n, n ≠ c → (doc'.node n).parent = (doc.node n).parent) (other : n ≠ c)
    (notBelow : ¬ Above doc c n) : Above doc a n := by
  induction above with
  | parent parent => exact .parent ((same _ other).symm.trans parent)
  | further parent _ ih =>
    have parent := (same _ other).symm.trans parent
    refine .further parent (ih ?_ fun above => notBelow (.further parent above))
    rintro rfl
    exact notBelow (.parent parent)

theorem WellFormed.not_above_self (formed : doc.WellFormed) (n : NodeId) : ¬ Above doc n n := by
  refine formed.acyclic.induction (C := fun n => ¬ Above doc n n) n fun n ih above => ?_
  obtain ⟨p, parent⟩ := above.parent_eq_some
  refine ih p parent ?_
  cases above with
  | parent self =>
    obtain rfl := Option.some.inj (self.symm.trans parent)
    exact .parent self
  | further parent' above =>
    obtain rfl := Option.some.inj (parent'.symm.trans parent)
    exact .trans (.parent parent) above

theorem above_of_climbsTo {a : NodeId} {steps : Nat} {n : NodeId}
    (climbs : doc.climbsTo a steps n = true) : Above doc a n := by
  induction steps generalizing n with
  | zero => cases climbs
  | succ steps ih =>
    simp only [climbsTo] at climbs
    split at climbs
    · cases climbs
    · rename_i p parent
      obtain same | later := Bool.or_eq_true_iff.mp climbs
      · exact .parent (beq_iff_eq.mp same ▸ parent)
      · exact .further parent (ih later)

/-- The way up passes every node at most once, so that it is not longer than the document. -/
theorem climbsTo_of_above (formed : doc.WellFormed) {a : NodeId} {steps : Nat} {n : NodeId}
    {passed : List NodeId} (once : passed.Nodup)
    (below : ∀ v ∈ passed, v < doc.size ∧ Above doc n v) (enough : doc.size ≤ passed.length + steps)
    (above : Above doc a n) : doc.climbsTo a steps n = true := by
  induction steps generalizing n passed with
  | zero =>
    obtain ⟨p, parent⟩ := above.parent_eq_some
    have fresh : n ∉ passed := fun member => formed.not_above_self n (below n member).2
    have inside : ∀ v ∈ n :: passed, v < doc.size := by
      intro v member
      rcases List.mem_cons.mp member with rfl | member
      · exact inside_of_parent parent
      · exact (below v member).1
    have bound := List.Nodup.length_le_of_subset (List.nodup_cons.mpr ⟨fresh, once⟩)
      fun v member => List.mem_range.mpr (inside v member)
    simp only [List.length_cons, List.length_range] at bound
    omega
  | succ steps ih =>
    obtain ⟨p, parent⟩ := above.parent_eq_some
    simp only [climbsTo, parent, Bool.or_eq_true, beq_iff_eq]
    cases above with
    | parent same => exact .inl (Option.some.inj (parent.symm.trans same))
    | further parent' above =>
      obtain rfl := Option.some.inj (parent'.symm.trans parent)
      have fresh : n ∉ passed := fun member => formed.not_above_self n (below n member).2
      refine .inr (ih (List.nodup_cons.mpr ⟨fresh, once⟩) (fun v member => ?_) ?_ above)
      · rcases List.mem_cons.mp member with rfl | member
        · exact ⟨inside_of_parent parent, .parent parent⟩
        · exact ⟨(below v member).1, .trans (.parent parent) (below v member).2⟩
      · simp only [List.length_cons]
        omega

theorem isAncestor_iff (formed : doc.WellFormed) (a n : NodeId) :
    doc.isAncestor a n = true ↔ Above doc a n :=
  ⟨above_of_climbsTo, climbsTo_of_above formed List.nodup_nil (fun _ member => nomatch member)
    (by simp)⟩

/-- A node is put at the end of a child list, or taken out of the child list it was in. -/
structure Relinks (doc doc' : Document ℓ) (place : Option NodeId) (child : NodeId) : Prop where
  size : doc'.size = doc.size
  own : ∀ n, (doc'.node n).own = (doc.node n).own
  parent : ∀ n, (doc'.node n).parent = if n = child then place else (doc.node n).parent
  children : ∀ n, (doc'.node n).children =
    (doc.node n).children.filter (· != child) ++ if place = some n then [child] else []
  released : ∀ n, (doc'.node n).released =
    if n = child ∧ place.isSome then false else (doc.node n).released
  free : doc'.free = doc.free

theorem WellFormed.filter_children (formed : doc.WellFormed) {n child : NodeId}
    (elsewhere : (doc.node child).parent ≠ some n) :
    (doc.node n).children.filter (· != child) = (doc.node n).children := by
  refine List.filter_eq_self.mpr fun c member => ?_
  have other : c ≠ child := by
    rintro rfl
    exact elsewhere ((formed.links n c).mp member)
  simpa using other

/-- Updates of two nodes. -/
theorem node_update_update {a b : NodeId} (inside : a < doc.size) (inside' : b < doc.size)
    (apart : b ≠ a) (f g : Node ℓ → Node ℓ) (n : NodeId) :
    ((doc.update a f).update b g).node n =
      if n = b then g (doc.node b) else if n = a then f (doc.node a) else doc.node n := by
  rw [node_update, size_update]
  by_cases first : n = b
  · rw [if_pos ⟨first, inside'⟩, if_pos first, node_update_of_ne apart]
  · rw [if_neg fun both => first both.1, if_neg first, node_update]
    simp [inside]

theorem relinks_detach (formed : doc.WellFormed) (child : NodeId) :
    Relinks doc (doc.detach child) none child := by
  unfold detach
  split
  · rename_i parent
    refine ⟨rfl, fun _ => rfl, fun n => ?_, fun n => ?_, fun n => by simp, rfl⟩
    · split
      · rename_i same
        rw [same, parent]
      · rfl
    · have elsewhere : (doc.node child).parent ≠ some n := parent ▸ nofun
      simp [formed.filter_children elsewhere]
  · rename_i p parent
    have apart : p ≠ child := by
      rintro rfl
      exact formed.not_above_self p (.parent parent)
    have after := node_update_update (inside_of_parent parent) (formed.parent_inside parent) apart
      (fun n => { n with parent := none })
      fun n => flagChildren { n with children := n.children.filter (· != child) }
    have elsewhere : ∀ n, n ≠ p →
        (doc.node n).children.filter (· != child) = (doc.node n).children := fun n other =>
      formed.filter_children fun here => other (Option.some.inj (here.symm.trans parent))
    refine ⟨by rw [size_update, size_update],
      fun n => ?_, fun n => ?_, fun n => ?_, fun n => ?_, rfl⟩
    all_goals
      rw [after]
      by_cases atParent : n = p
      · simp [atParent, apart, flagChildren, Node.own]
      · by_cases atChild : n = child
        · simp [atChild, Ne.symm apart, elsewhere child (Ne.symm apart), Node.own]
        · simp [atParent, atChild, elsewhere n atParent]

theorem relinks_place (formed : doc.WellFormed) {parent child : NodeId} (inside : child < doc.size)
    (inside' : parent < doc.size) (apart : parent ≠ child) :
    Relinks doc (doc.place parent child) (some parent) child := by
  have detached := relinks_detach formed child
  have after := node_update_update (detached.size ▸ inside) (detached.size ▸ inside') apart
    (fun n => { n with parent := some parent, released := false })
    fun n => flagChildren { n with children := n.children ++ [child] }
  unfold place
  refine ⟨by rw [size_update, size_update, detached.size], fun n => ?_, fun n => ?_, fun n => ?_,
    fun n => ?_, detached.free⟩
  · rw [after, ← detached.own n]
    split
    · rename_i same
      rw [same]
      rfl
    · split
      · rename_i same
        rw [same]
        rfl
      · rfl
  all_goals
    rw [after]
    by_cases atParent : n = parent
    · subst atParent
      simp [flagChildren, detached.parent, detached.children, detached.released, apart]
    · by_cases atChild : n = child
      · subst atChild
        simp [Ne.symm apart, detached.children]
        try exact fun same => (apart same).elim
      · simp [atParent, atChild, detached.parent, detached.children, detached.released]
        try exact fun same => (atParent same.symm).elim

namespace Relinks

variable {place : Option NodeId} {child : NodeId} (moved : Relinks doc doc' place child)
include moved

theorem kind (n : NodeId) : (doc'.node n).kind = (doc.node n).kind := by
  have same := congrArg Node.kind (moved.own n)
  exact same

/-- No way up leads place the node itself again, since its new parent was not below it. -/
theorem acyclic (formed : doc.WellFormed)
    (below : ∀ p, place = some p → p ≠ child ∧ ¬ Above doc child p) :
    WellFounded fun p c => (doc'.node c).parent = some p := by
  have before : ∀ {n p}, n ≠ child → (doc'.node n).parent = some p →
      (doc.node n).parent = some p := by
    intro n p other parent
    rwa [moved.parent, if_neg other] at parent
  have outside : ∀ n, n ≠ child → ¬ Above doc child n →
      Acc (fun p c => (doc'.node c).parent = some p) n := by
    intro n
    refine formed.acyclic.induction (C := fun n => n ≠ child → ¬ Above doc child n →
      Acc (fun p c => (doc'.node c).parent = some p) n) n fun n ih other notBelow => ?_
    refine ⟨n, fun p parent => ?_⟩
    have parent := before other parent
    refine ih p parent ?_ fun above => notBelow (.further parent above)
    rintro rfl
    exact notBelow (.parent parent)
  refine ⟨fun n => formed.acyclic.induction
    (C := fun n => Acc (fun p c => (doc'.node c).parent = some p) n) n fun n ih => ?_⟩
  refine ⟨n, fun p parent => ?_⟩
  by_cases same : n = child
  · rw [moved.parent, if_pos same] at parent
    obtain ⟨other, notBelow⟩ := below p parent
    exact outside p other notBelow
  · exact ih p (before same parent)

theorem wellFormed (formed : doc.WellFormed) (inner : (doc.node child).kind ≠ .fragment)
    (below : ∀ p, place = some p → p ≠ child ∧ ¬ Above doc child p) : doc'.WellFormed where
  inhabited := moved.size ▸ formed.inhabited
  links p c := by
    rw [moved.children, moved.parent, List.mem_append, List.mem_filter, formed.links]
    by_cases same : c = child
    · subst same
      by_cases here : place = some p <;> simp [here]
    · by_cases here : place = some p <;> simp [here, same]
  distinct p := by
    rw [moved.children]
    split
    · refine List.nodup_append.mpr ⟨(formed.distinct p).filter _, by simp, ?_⟩
      intro a member b single
      rw [List.mem_singleton.mp single]
      simpa using (List.mem_filter.mp member).2
    · rw [List.append_nil]
      exact (formed.distinct p).filter _
  acyclic := moved.acyclic formed below
  fragments n fragment := by
    rw [moved.kind] at fragment
    have other : n ≠ child := by
      rintro rfl
      exact inner fragment
    rw [moved.parent, if_neg other, formed.fragments n fragment]
  root_fragment := (moved.kind rootId).trans formed.root_fragment
  root_kept := by
    rw [moved.released, formed.root_kept]
    simp
  waiting n released := by
    rw [moved.released] at released
    split at released
    · cases released
    · rename_i stays
      obtain ⟨top, waits⟩ := formed.waiting n released
      refine ⟨?_, moved.free ▸ waits⟩
      rw [moved.parent]
      split
      · rename_i same
        exact Option.not_isSome_iff_eq_none.mp fun some => stays ⟨same, some⟩
      · exact top

/-- The way up from a node that is not below the moved one is as it was. -/
theorem above_before {a n : NodeId} (above : Above doc' a n) (other : n ≠ child)
    (notBelow : ¬ Above doc child n) : Above doc a n :=
  above.before_elsewhere (fun n other => (moved.parent n).trans (if_neg other)) other notBelow

end Relinks

/-- Taking the parents off nodes. -/
theorem node_loosened (ids : List NodeId) (doc : Document ℓ) (n : NodeId) :
    (ids.foldl (fun doc c => doc.update c fun n => { n with parent := none }) doc).node n =
      if n ∈ ids then { doc.node n with parent := none } else doc.node n := by
  induction ids generalizing doc with
  | nil => simp
  | cons id rest ih =>
    rw [List.foldl_cons, ih, node_update]
    by_cases same : n = id
    · subst same
      by_cases inside : n < doc.size
      · simp [inside]
      · simp [inside, node_of_outside (Nat.le_of_not_lt inside)]
    · simp [same]

theorem size_loosened (ids : List NodeId) (doc : Document ℓ) :
    (ids.foldl (fun doc c => doc.update c fun n => { n with parent := none }) doc).size =
      doc.size := by
  induction ids generalizing doc with
  | nil => rfl
  | cons id rest ih => rw [List.foldl_cons, ih, size_update]

theorem free_loosened (ids : List NodeId) (doc : Document ℓ) :
    (ids.foldl (fun doc c => doc.update c fun n => { n with parent := none }) doc).free =
      doc.free := by
  induction ids generalizing doc with
  | nil => rfl
  | cons id rest ih => rw [List.foldl_cons, ih, free_update]

/-- A fragment without the children that it is about to give away. -/
def cleared (doc : Document ℓ) (id : NodeId) : Document ℓ :=
  if (doc.node id).children = [] then doc
  else doc.update id fun n => flagChildren { n with children := [] }

theorem cleared_keeps {β : Type} (field : Node ℓ → β)
    (kept : ∀ n, field (flagChildren { n with children := [] }) = field n) (id n : NodeId) :
    field ((doc.cleared id).node n) = field (doc.node n) := by
  unfold cleared
  split
  · rfl
  · exact update_keeps field kept n

theorem node_cleared_of_ne {id n : NodeId} (other : n ≠ id) :
    (doc.cleared id).node n = doc.node n := by
  unfold cleared
  split
  · rfl
  · exact node_update_of_ne other _

theorem children_cleared (id : NodeId) : ((doc.cleared id).node id).children = [] := by
  unfold cleared
  split
  · assumption
  · rename_i some
    have inside : id < doc.size := by
      refine Nat.lt_of_not_le fun outside => some ?_
      rw [node_of_outside outside]
    rw [node_update_self inside]
    rfl

/-- A fragment is emptied before its children move, so that they have no parent in between. -/
theorem sheds_emptyFragment (formed : doc.WellFormed) (id : NodeId) :
    Sheds doc (doc.emptyFragment id) id := by
  have after : ∀ n, (doc.emptyFragment id).node n =
      if n ∈ (doc.node id).children then { (doc.cleared id).node n with parent := none }
      else (doc.cleared id).node n := node_loosened _ _
  have apart : id ∉ (doc.node id).children := fun member =>
    formed.not_above_self id (.parent ((formed.links id id).mp member))
  refine ⟨?_, fun n other => ?_, ?_, ?_, fun n => ?_, fun n released => ?_, fun n waits => ?_⟩
  · refine (size_loosened _ (doc.cleared id)).trans ?_
    unfold cleared
    split
    · rfl
    · exact size_update _ _ _
  · rw [after, node_cleared_of_ne other]
    split <;> rfl
  · rw [after, if_neg apart]
    exact cleared_keeps Node.own (fun _ => rfl) id id
  · rw [after, if_neg apart, children_cleared]
  · rw [after]
    simp only [formed.links]
    split
    · rfl
    · exact cleared_keeps Node.parent (fun _ => rfl) id n
  · refine .inl ((cleared_keeps Node.released (fun _ => rfl) id n).symm.trans ?_)
    rw [after] at released
    split at released <;> exact released
  · have same : (doc.emptyFragment id).free = (doc.cleared id).free := free_loosened _ _
    rw [same]
    unfold cleared
    split <;> exact waits

theorem Sheds.above_before {id a n : NodeId} (dropped : Sheds doc doc' id)
    (above : Above doc' a n) : Above doc a n :=
  above.mono fun _ _ parent => (dropped.parent_before parent).1

/-- A node may go below a parent: it is no fragment, and the parent is neither the node
nor below it. -/
structure Placeable (doc : Document ℓ) (parent child : NodeId) : Prop where
  inside : child < doc.size
  apart : parent ≠ child
  outside : ¬ Above doc child parent
  inner : (doc.node child).kind ≠ .fragment

namespace Placeable

variable {parent child other : NodeId} (placeable : Placeable doc parent child)
include placeable

theorem relinks (formed : doc.WellFormed) (inside : parent < doc.size) :
    Relinks doc (doc.place parent child) (some parent) child :=
  relinks_place formed placeable.inside inside placeable.apart

theorem wellFormed (formed : doc.WellFormed) (inside : parent < doc.size) :
    (doc.place parent child).WellFormed := by
  refine (placeable.relinks formed inside).wellFormed formed placeable.inner fun p same => ?_
  obtain rfl := Option.some.inj same
  exact ⟨placeable.apart, placeable.outside⟩

/-- What may go below the parent still may when a node has gone there. -/
theorem after (formed : doc.WellFormed) (inside : parent < doc.size)
    (later : Placeable doc parent other) : Placeable (doc.place parent child) parent other := by
  have moved := placeable.relinks formed inside
  refine ⟨moved.size ▸ later.inside, later.apart, fun above => ?_, moved.kind other ▸ later.inner⟩
  exact later.outside (moved.above_before above placeable.apart placeable.outside)

end Placeable

theorem placeable_of_inner {parent child : NodeId} (inner : (doc.node child).kind ≠ .fragment)
    (apart : parent ≠ child) (outside : ¬ Above doc child parent) : Placeable doc parent child := by
  refine ⟨Nat.lt_of_not_le fun beyond => inner ?_, apart, outside, inner⟩
  rw [node_of_outside beyond]

/-- The children of a node may go below a root. -/
theorem placeable_of_top (formed : doc.WellFormed) {a b c : NodeId}
    (top : (doc.node b).parent = none) (member : c ∈ (doc.node a).children) :
    Placeable doc b c := by
  have parent := (formed.links a c).mp member
  refine ⟨inside_of_parent parent, ?_, fun above => ?_, fun fragment => ?_⟩
  · rintro rfl
    cases top.symm.trans parent
  · obtain ⟨p, parent⟩ := above.parent_eq_some
    cases top.symm.trans parent
  · cases (formed.fragments c fragment).symm.trans parent

/-- The children that a fragment has given away may go below a node that is not below
the fragment. -/
theorem placeable_emptyFragment (formed : doc.WellFormed) {a b c : NodeId}
    (outside : ¬ Above doc a b) (member : c ∈ (doc.node a).children) :
    Placeable (doc.emptyFragment a) b c := by
  have emptied := sheds_emptyFragment formed a
  have parent := (formed.links a c).mp member
  refine ⟨emptied.size ▸ inside_of_parent parent, ?_, fun above => ?_, fun fragment => ?_⟩
  · rintro rfl
    exact outside (.parent parent)
  · exact outside (.trans (.parent parent) (emptied.above_before above))
  · cases (formed.fragments c ((emptied.kind c).symm.trans fragment)).symm.trans parent

theorem wellFormed_placeAll {parent : NodeId} (children : List NodeId) (formed : doc.WellFormed)
    (inside : parent < doc.size) (each : ∀ c ∈ children, Placeable doc parent c) :
    (children.foldl (fun doc c => doc.place parent c) doc).WellFormed := by
  induction children generalizing doc with
  | nil => exact formed
  | cons c rest ih =>
    have first := each c List.mem_cons_self
    refine ih (first.wellFormed formed inside) ?_ fun d member => ?_
    · exact (first.relinks formed inside).size ▸ inside
    · exact first.after formed inside (each d (List.mem_cons_of_mem _ member))

section Append

variable {parent child : NodeId}

/-- A node does not go into its own subtree. -/
theorem append_of_upper (formed : doc.WellFormed)
    (upper : child = parent ∨ Above doc child parent) :
    doc.append parent child = doc := by
  rw [append, if_pos]
  simpa only [Bool.or_eq_true, decide_eq_true_eq, isAncestor_iff formed]

theorem append_of_placeable (formed : doc.WellFormed) (placeable : Placeable doc parent child) :
    doc.append parent child = doc.place parent child := by
  rw [append, if_neg, if_neg placeable.inner]
  simp only [Bool.or_eq_true, decide_eq_true_eq, isAncestor_iff formed, not_or]
  exact ⟨placeable.apart.symm, placeable.outside⟩

/-- A fragment is emptied, and its children are placed in their order. -/
theorem append_of_fragment (formed : doc.WellFormed) (fragment : (doc.node child).kind = .fragment)
    (apart : parent ≠ child) (outside : ¬ Above doc child parent) :
    doc.append parent child =
      (doc.node child).children.foldl (fun doc c => doc.place parent c)
      (doc.emptyFragment child) := by
  rw [append, if_neg, if_pos fragment]
  simp only [Bool.or_eq_true, decide_eq_true_eq, isAncestor_iff formed, not_or]
  exact ⟨apart.symm, outside⟩

theorem WellFormed.append (formed : doc.WellFormed) (inside : parent < doc.size) (child : NodeId) :
    (doc.append parent child).WellFormed := by
  by_cases upper : child = parent ∨ Above doc child parent
  · rwa [append_of_upper formed upper]
  obtain ⟨apart, outside⟩ := not_or.mp upper
  by_cases fragment : (doc.node child).kind = .fragment
  · have emptied := sheds_emptyFragment formed child
    rw [append_of_fragment formed fragment (Ne.symm apart) outside]
    exact wellFormed_placeAll _ (emptied.wellFormed formed) (emptied.size ▸ inside)
      fun c => placeable_emptyFragment formed outside
  · have placeable := placeable_of_inner fragment (Ne.symm apart) outside
    rw [append_of_placeable formed placeable]
    exact placeable.wellFormed formed inside

end Append

end ReactiveView.Document
