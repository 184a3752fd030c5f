import ReactiveView.Proofs.Document.Tree

/-! Dropping subtrees and using slots again. Dropping the children of a node leaves a well-formed
document. Taking a slot for a new node gives a fresh slot or one that was released, had no parent
and was not held, and changes nothing about the other nodes but where they are. -/
namespace ReactiveView.Document

variable {ℓ : Type} {doc doc' : Document ℓ} {id : NodeId} {held : NodeId → Bool}

/-- Nodes were cut loose as the roots of dropped subtrees. -/
structure Drops (doc doc' : Document ℓ) (ids : List NodeId) : Prop where
  size : doc'.size = doc.size
  content : ∀ n, (doc'.node n).content = (doc.node n).content
  parent : ∀ n, (doc'.node n).parent = if n ∈ ids then none else (doc.node n).parent
  released : ∀ n, (doc'.node n).released = true →
    (doc.node n).released = true ∨ n ∈ ids ∧ n ∈ doc'.free
  free : ∀ n ∈ doc.free, n ∈ doc'.free

theorem drops_release (doc : Document ℓ) (id : NodeId)
    (waiting : (doc.node id).released = true → id ∈ doc.free) :
    Drops doc (doc.release id) [id] where
  size := size_update doc id _
  content := update_keeps Node.content fun _ => rfl
  parent n := by
    show ((doc.update id _).node n).parent = _
    rw [node_update]
    by_cases same : n = id
    · subst same
      by_cases inside : n < doc.size
      · simp [inside]
      · simp [inside, node_of_outside (Nat.le_of_not_lt inside)]
    · simp [same]
  released n released := by
    have found :
        ((doc.update id fun n => { n with parent := none, released := true }).node n).released
        = true := released
    rw [node_update] at found
    split at found
    · rename_i both
      obtain ⟨rfl, -⟩ := both
      refine .inr ⟨List.mem_singleton_self n, ?_⟩
      simp only [release]
      split
      · exact waiting ‹_›
      · simp
    · exact .inl found
  free n waits := by
    simp only [release]
    split
    · exact waits
    · exact List.mem_append_left _ waits

namespace Drops

theorem nil (doc : Document ℓ) : Drops doc doc [] :=
  ⟨rfl, fun _ => rfl, fun n => by simp, fun _ released => .inl released, fun _ waits => waits⟩

theorem cons {doc'' : Document ℓ} {ids : List NodeId} (first : Drops doc doc' [id])
    (later : Drops doc' doc'' ids) : Drops doc doc'' (id :: ids) where
  size := later.size.trans first.size
  content n := (later.content n).trans (first.content n)
  parent n := by
    rw [later.parent, first.parent]
    by_cases same : n = id <;> by_cases member : n ∈ ids <;> simp [same, member]
  released n released := by
    obtain before | ⟨member, waits⟩ := later.released n released
    · obtain before | ⟨member, waits⟩ := first.released n before
      · exact .inl before
      · exact .inr ⟨by simp [List.mem_singleton.mp member], later.free n waits⟩
    · exact .inr ⟨List.mem_cons_of_mem _ member, waits⟩
  free n waits := later.free n (first.free n waits)

end Drops

theorem drops_releaseAll (ids : List NodeId) (doc : Document ℓ)
    (waiting : ∀ n ∈ ids, (doc.node n).released = true → n ∈ doc.free) :
    Drops doc (doc.releaseAll ids) ids := by
  induction ids generalizing doc with
  | nil => exact .nil doc
  | cons id rest ih =>
    have first := drops_release doc id (waiting id List.mem_cons_self)
    refine first.cons (ih _ fun n member released => ?_)
    obtain before | ⟨-, waits⟩ := first.released n released
    · exact first.free n (waiting n (List.mem_cons_of_mem _ member) before)
    · exact waits

/-- Drops all children of a node. -/
def shed (doc : Document ℓ) (id : NodeId) : Document ℓ :=
  (doc.update id fun n => { n with children := [] }).releaseAll (doc.node id).children

/-- The children of a node were cut loose, and only they may have been released. -/
structure Sheds (doc doc' : Document ℓ) (id : NodeId) : Prop where
  size : doc'.size = doc.size
  content : ∀ n, n ≠ id → (doc'.node n).content = (doc.node n).content
  own : (doc'.node id).own = (doc.node id).own
  childless : (doc'.node id).children = []
  parent : ∀ n, (doc'.node n).parent =
    if (doc.node n).parent = some id then none else (doc.node n).parent
  released : ∀ n, (doc'.node n).released = true →
    (doc.node n).released = true ∨ (doc.node n).parent = some id ∧ n ∈ doc'.free
  free : ∀ n ∈ doc.free, n ∈ doc'.free

/-- Dropping the children of a node does not depend on what is on the free list. -/
theorem sheds (formed : doc.WellFormed) (id : NodeId) (free : List NodeId) :
    Sheds { doc with free } (shed { doc with free } id) id := by
  let cleared : Document ℓ := update { doc with free } id fun n => { n with children := [] }
  have parent : ∀ n, (cleared.node n).parent = (doc.node n).parent :=
    update_keeps Node.parent fun _ => rfl
  have released : ∀ n, (cleared.node n).released = (doc.node n).released :=
    update_keeps Node.released fun _ => rfl
  have own : ∀ n, (cleared.node n).own = (doc.node n).own := update_keeps Node.own fun _ => rfl
  have drops : Drops cleared (shed { doc with free } id) (doc.node id).children :=
    drops_releaseAll _ cleared fun n member isReleased => by
      -- A child has a parent, so it is not released yet.
      have top := (formed.waiting n ((released n).symm.trans isReleased)).1
      cases top.symm.trans ((formed.links id n).mp member)
  refine ⟨drops.size.trans (size_update _ id _), fun n other => ?_, ?_, ?_, fun n => ?_,
    fun n isReleased => ?_, drops.free⟩
  · exact (drops.content n).trans (congrArg Node.content (node_update_of_ne other _))
  · exact (congrArg Node.own (drops.content id)).trans (own id)
  · have same := congrArg Node.children (drops.content id)
    refine same.trans ?_
    show (cleared.node id).children = []
    rw [show cleared.node id = _ from node_update _ id id _]
    split
    · rfl
    · rename_i outside
      rw [node_of_outside (Nat.le_of_not_lt fun inside => outside ⟨rfl, inside⟩)]
  · rw [drops.parent, parent]
    simp only [formed.links]
    rfl
  · obtain before | ⟨member, waits⟩ := drops.released n isReleased
    · exact .inl ((released n).symm.trans before)
    · exact .inr ⟨(formed.links id n).mp member, waits⟩

namespace Sheds

variable (dropped : Sheds doc doc' id)
include dropped

theorem children (n : NodeId) :
    (doc'.node n).children = if n = id then [] else (doc.node n).children := by
  split
  · rename_i same
    rw [same, dropped.childless]
  · have same := congrArg Node.children (dropped.content n ‹_›)
    exact same

theorem kind (n : NodeId) : (doc'.node n).kind = (doc.node n).kind := by
  by_cases same : n = id
  · have kept := congrArg Node.kind dropped.own
    rw [same]
    exact kept
  · have kept := congrArg Node.kind (dropped.content n same)
    exact kept

theorem parent_before {n p : NodeId} (parent : (doc'.node n).parent = some p) :
    (doc.node n).parent = some p ∧ p ≠ id := by
  rw [dropped.parent] at parent
  split at parent
  · cases parent
  · rename_i other
    exact ⟨parent, fun same => other (same ▸ parent)⟩

theorem parent_none {n : NodeId} (top : (doc.node n).parent = none) :
    (doc'.node n).parent = none := by
  rw [dropped.parent, top]
  rfl

theorem wellFormed (formed : doc.WellFormed) : doc'.WellFormed where
  inhabited := dropped.size ▸ formed.inhabited
  links p c := by
    rw [dropped.children, dropped.parent]
    have same := formed.links p c
    by_cases here : p = id
    · subst here
      split <;> simp_all
    · grind
  distinct p := by
    rw [dropped.children]
    split
    · exact List.nodup_nil
    · exact formed.distinct p
  acyclic := Subrelation.wf (fun parent => (dropped.parent_before parent).1) formed.acyclic
  fragments n fragment :=
    dropped.parent_none (formed.fragments n ((dropped.kind n).symm.trans fragment))
  root_fragment := (dropped.kind rootId).trans formed.root_fragment
  root_kept := by
    refine Bool.eq_false_iff.mpr fun released => ?_
    obtain before | ⟨child, -⟩ := dropped.released rootId released
    · cases before.symm.trans formed.root_kept
    · cases (formed.fragments rootId formed.root_fragment).symm.trans child
  waiting n released := by
    obtain before | ⟨child, waits⟩ := dropped.released n released
    · obtain ⟨top, waits⟩ := formed.waiting n before
      exact ⟨dropped.parent_none top, dropped.free n waits⟩
    · exact ⟨by rw [dropped.parent, if_pos child], waits⟩

end Sheds

theorem clearChildren_eq (doc : Document ℓ) (id : NodeId) : doc.clearChildren id =
    if (doc.node id).children = [] then doc else (doc.shed id).update id flagChildren := by
  unfold clearChildren shed
  cases (doc.node id).children with
  | nil => rfl
  | cons c rest => rfl

/-- Clearing a child list drops the children. -/
theorem WellFormed.clearChildren (formed : doc.WellFormed) (id : NodeId) :
    (doc.clearChildren id).WellFormed := by
  rw [clearChildren_eq]
  split
  · exact formed
  · exact ((sheds formed id doc.free).wellFormed formed).sameForest
      (sameForest_update (fun _ => rfl) (fun _ => rfl) (fun _ => rfl) fun _ => rfl)

/-- The state after a new node was put into a slot: a fresh slot, or one that was released, had no
parent and was not held. The nodes that were its children are released. -/
structure Allocates (held : NodeId → Bool) (doc doc' : Document ℓ) (n : Node ℓ) (id : NodeId) :
    Prop where
  slot : id = doc.size ∨ id < doc.size ∧ (doc.node id).released = true ∧
    (doc.node id).parent = none ∧ held id = false
  size : doc'.size = max doc.size (id + 1)
  new : doc'.node id = n
  content : ∀ m, m ≠ id → (doc'.node m).content = (doc.node m).content
  parent : ∀ m, m ≠ id → (doc'.node m).parent =
    if (doc.node m).parent = some id then none else (doc.node m).parent
  released : ∀ m, m ≠ id → (doc'.node m).released = true →
    (doc.node m).released = true ∨ (doc.node m).parent = some id ∧ m ∈ doc'.free
  free : ∀ m ∈ doc.free, m ≠ id → (doc.node m).released = true → m ∈ doc'.free

/-- Only the entry at the position goes. -/
theorem mem_swapRemove {ids : List NodeId} {i : Nat} {n : NodeId} (found : ids[i]? = some id)
    (member : n ∈ ids) (other : n ≠ id) : n ∈ swapRemove ids i := by
  obtain ⟨j, atJ⟩ := List.mem_iff_getElem?.mp member
  have inside : i < ids.length := (List.getElem?_eq_some_iff.mp found).1
  have inside' : j < ids.length := (List.getElem?_eq_some_iff.mp atJ).1
  have apart : i ≠ j := by
    rintro rfl
    exact other (Option.some.inj (atJ.symm.trans found))
  have end_ : ids.length - 1 < ids.length := by omega
  have last : ids.getLast? = some ids[ids.length - 1] := by
    rw [List.getLast?_eq_getElem?]
    exact List.getElem?_eq_getElem end_
  simp only [swapRemove, last]
  refine List.mem_iff_getElem?.mpr ?_
  by_cases atEnd : j = ids.length - 1
  · subst atEnd
    have before : i < ids.length - 1 := by omega
    have same : ids[ids.length - 1] = n := (List.getElem?_eq_some_iff.mp atJ).2
    exact ⟨i, by simp [before, same]⟩
  · refine ⟨j, ?_⟩
    simp [List.getElem?_dropLast, apart, atJ]
    omega

theorem reclaim?_eq_some (held : NodeId → Bool) (found : doc.reclaim? held = some (id, doc')) :
    id ∈ doc.free ∧ (doc.node id).parent = none ∧ held id = false ∧
      ∃ free, doc' = shed { doc with free } id ∧ ∀ n ∈ doc.free, n ≠ id → n ∈ free := by
  unfold reclaim? at found
  obtain ⟨i, first, found⟩ := Option.bind_eq_some_iff.mp found
  obtain ⟨id', taken, found⟩ := Option.bind_eq_some_iff.mp found
  obtain ⟨rfl, rfl⟩ := Prod.mk.inj (Option.some.inj found)
  obtain ⟨inside, usable, -⟩ := List.findIdx?_eq_some_iff_getElem.mp first
  obtain rfl : doc.free[i] = id' :=
    Option.some.inj ((List.getElem?_eq_getElem inside).symm.trans taken)
  simp only [reusable, Bool.and_eq_true, Option.isNone_iff_eq_none, Bool.not_eq_true'] at usable
  exact ⟨List.getElem_mem inside, usable.1, usable.2, _, rfl,
    fun n member other => mem_swapRemove taken member other⟩

theorem wellFormed_pruneFree (formed : doc.WellFormed) : doc.pruneFree.WellFormed :=
  formed.sameForest ⟨rfl, fun _ => rfl, fun _ => rfl, fun _ => rfl, fun _ => rfl,
    fun _ waits released => List.mem_filter.mpr ⟨waits, released⟩⟩

/-- No node hangs below a slot that is not there yet. -/
theorem WellFormed.parent_inside (formed : doc.WellFormed) {n p : NodeId}
    (parent : (doc.node n).parent = some p) : p < doc.size := by
  refine Nat.lt_of_not_le fun outside => ?_
  have member := (formed.links p n).mpr parent
  simp [node_of_outside outside] at member

theorem node_push (doc : Document ℓ) (n : Node ℓ) (m : NodeId) :
    (Document.node { doc with nodes := doc.nodes.push n } m) =
      if m = doc.size then n else doc.node m := by
  by_cases last : m = doc.size
  · simp only [size] at last
    simp [node, size, last]
  · rw [if_neg last]
    simp only [size] at last
    simp [node, Array.getElem?_push, last]

theorem allocates_push (formed : doc.WellFormed) (held : NodeId → Bool) (n : Node ℓ) :
    Allocates held doc { doc with nodes := doc.nodes.push n } n doc.size where
  slot := .inl rfl
  size := by simp [size]
  new := by rw [node_push, if_pos rfl]
  content m other := by rw [node_push, if_neg other]
  parent m other := by
    rw [node_push, if_neg other, if_neg]
    exact fun child => Nat.lt_irrefl _ (formed.parent_inside child)
  released m other released := by
    rw [node_push, if_neg other] at released
    exact .inl released
  free _ waits _ _ := waits

theorem allocates_alloc (formed : doc.WellFormed) (held : NodeId → Bool) (n : Node ℓ) :
    Allocates held doc (doc.alloc held n).2 n (doc.alloc held n).1 := by
  have pruned := wellFormed_pruneFree formed
  unfold alloc
  dsimp only
  cases found : doc.pruneFree.reclaim? held with
  | none =>
    have fresh := allocates_push pruned held n
    exact { fresh with free := fun m waits _ released => List.mem_filter.mpr ⟨waits, released⟩ }
  | some taken =>
    obtain ⟨id, dropped⟩ := taken
    obtain ⟨waits, top, free, others, rfl, kept⟩ := reclaim?_eq_some held found
    have sheds := sheds pruned id others
    have released : (doc.node id).released = true := (List.mem_filter.mp waits).2
    have inside : id < doc.size := by
      refine Nat.lt_of_not_le fun outside => ?_
      simp [node_of_outside outside] at released
    have inside' : id < (shed { doc.pruneFree with free := others } id).size := sheds.size ▸ inside
    have elsewhere : ∀ m, m ≠ id → ((shed { doc.pruneFree with free := others } id).update id
        fun _ => n).node m = (shed { doc.pruneFree with free := others } id).node m :=
      fun m other => node_update_of_ne other _
    refine ⟨.inr ⟨inside, released, top, free⟩, ?_, ?_, fun m other => ?_, fun m other => ?_,
      fun m other isReleased => ?_, fun m waits' other isReleased => ?_⟩
    · rw [size_update, sheds.size, Nat.max_eq_left inside]
      rfl
    · rw [node_update_self inside']
    · rw [elsewhere m other, sheds.content m other]
      rfl
    · rw [elsewhere m other, sheds.parent]
      rfl
    · rw [elsewhere m other] at isReleased
      exact sheds.released m isReleased
    · exact sheds.free m (kept m (List.mem_filter.mpr ⟨waits', isReleased⟩) other)

namespace Allocates

variable {n : Node ℓ} (allocated : Allocates held doc doc' n id)
include allocated

theorem top : (doc.node id).parent = none := by
  obtain rfl | ⟨-, -, top, -⟩ := allocated.slot
  · rw [node_of_outside (Nat.le_refl _)]
  · exact top

theorem inside : id < doc'.size := by
  rw [allocated.size]
  exact Nat.lt_of_lt_of_le (Nat.lt_succ_self id) (Nat.le_max_right _ _)

theorem size_le : doc.size ≤ doc'.size :=
  allocated.size ▸ Nat.le_max_left _ _

theorem ne_root (formed : doc.WellFormed) : id ≠ rootId := by
  rintro rfl
  obtain none | ⟨-, released, -⟩ := allocated.slot
  · exact Nat.ne_of_lt formed.inhabited none
  · cases released.symm.trans formed.root_kept

theorem children {m : NodeId} (other : m ≠ id) :
    (doc'.node m).children = (doc.node m).children := by
  have same := congrArg Node.children (allocated.content m other)
  exact same

theorem kind {m : NodeId} (other : m ≠ id) : (doc'.node m).kind = (doc.node m).kind := by
  have same := congrArg Node.kind (allocated.content m other)
  exact same

theorem parent_before {m p : NodeId} (other : m ≠ id) (parent : (doc'.node m).parent = some p) :
    (doc.node m).parent = some p ∧ p ≠ id := by
  rw [allocated.parent m other] at parent
  split at parent
  · cases parent
  · rename_i apart
    exact ⟨parent, fun same => apart (same ▸ parent)⟩

theorem wellFormed (formed : doc.WellFormed) (top : n.parent = none) (childless : n.children = [])
    (kept : n.released = false) : doc'.WellFormed where
  inhabited := Nat.lt_of_lt_of_le formed.inhabited allocated.size_le
  links p c := by
    by_cases here : c = id
    · subst here
      rw [allocated.new, top]
      by_cases same : p = c
      · simp [same, allocated.new, childless]
      · rw [allocated.children same, formed.links, allocated.top]
    · by_cases same : p = id
      · subst same
        rw [allocated.new, childless, allocated.parent c here]
        split <;> simp_all
      · rw [allocated.children same, formed.links, allocated.parent c here]
        split
        · rename_i child
          simp [child, Ne.symm same]
        · rfl
  distinct p := by
    by_cases same : p = id
    · rw [same, allocated.new, childless]
      exact List.nodup_nil
    · rw [allocated.children same]
      exact formed.distinct p
  acyclic := Subrelation.wf (fun {p c} parent => by
    by_cases same : c = id
    · rw [same, allocated.new, top] at parent
      cases parent
    · exact (allocated.parent_before same parent).1) formed.acyclic
  fragments m fragment := by
    by_cases same : m = id
    · rw [same, allocated.new, top]
    · rw [allocated.parent m same, formed.fragments m ((allocated.kind same).symm.trans fragment)]
      rfl
  root_fragment :=
    (allocated.kind (allocated.ne_root formed).symm).trans formed.root_fragment
  root_kept := by
    refine Bool.eq_false_iff.mpr fun released => ?_
    obtain before | ⟨child, -⟩ :=
      allocated.released rootId (allocated.ne_root formed).symm released
    · cases before.symm.trans formed.root_kept
    · cases (formed.fragments rootId formed.root_fragment).symm.trans child
  waiting m released := by
    by_cases same : m = id
    · rw [same, allocated.new, kept] at released
      cases released
    · obtain before | ⟨child, waits⟩ := allocated.released m same released
      · obtain ⟨top, waits⟩ := formed.waiting m before
        refine ⟨?_, allocated.free m waits same before⟩
        rw [allocated.parent m same, top]
        rfl
      · exact ⟨by rw [allocated.parent m same, if_pos child], waits⟩

end Allocates

end ReactiveView.Document
