import ReactiveView.Proofs.Document.Grafting
import ReactiveView.Proofs.Document.Listing

/-! Which slots of a document are in use. A node without a parent is the root, or it was released
and waits to be used again, so that a document grows only when every slot is in the tree. -/
namespace ReactiveView.Document

variable {ℓ : Type} {doc doc' doc'' : Document ℓ} {held : NodeId → Bool} {id m : NodeId}

section Released

/-- What is released stays so, and what is dropped is released. -/
theorem released_release (inside : m < doc.size) (waits : (doc.node m).released = true ∨ m = id) :
    ((doc.release id).node m).released = true := by
  show ((doc.update id _).node m).released = true
  rw [node_update]
  split
  · rfl
  · rename_i other
    exact waits.resolve_right fun same => other ⟨same, same ▸ inside⟩

theorem released_releaseAll {ids : List NodeId} (inside : m < doc.size)
    (waits : (doc.node m).released = true ∨ m ∈ ids) :
    ((doc.releaseAll ids).node m).released = true := by
  induction ids generalizing doc with
  | nil => exact waits.resolve_right List.not_mem_nil
  | cons id rest ih =>
    refine ih (inside.trans_eq (size_update doc id _).symm) ?_
    rcases waits with before | member
    · exact .inl (released_release inside (.inl before))
    · rcases List.mem_cons.mp member with same | later
      · exact .inl (released_release inside (.inr same))
      · exact .inr later

theorem released_shed (inside : m < doc.size)
    (waits : (doc.node m).released = true ∨ m ∈ (doc.node id).children) :
    ((doc.shed id).node m).released = true := by
  refine released_releaseAll (inside.trans_eq (size_update doc id _).symm) (waits.imp_left ?_)
  intro before
  rw [update_keeps Node.released]
  · exact before
  · exact fun _ => rfl

theorem released_alloc (formed : doc.WellFormed) (held : NodeId → Bool) (n : Node ℓ)
    (inside : m < doc.size) (other : m ≠ (doc.alloc held n).1)
    (waits : (doc.node m).released = true ∨ (doc.node m).parent = some (doc.alloc held n).1) :
    ((doc.alloc held n).2.node m).released = true := by
  unfold alloc at other waits ⊢
  dsimp only at other waits ⊢
  cases found : doc.pruneFree.reclaim? held with
  | none =>
    simp only [found] at other waits ⊢
    rw [node_push, if_neg other]
    refine waits.resolve_right fun below => ?_
    exact Nat.lt_irrefl doc.size (formed.parent_inside below)
  | some taken =>
    obtain ⟨id, dropped⟩ := taken
    obtain ⟨-, -, -, free, rfl, -⟩ := reclaim?_eq_some held found
    simp only [found] at other waits ⊢
    rw [node_update_of_ne other]
    exact released_shed inside (waits.imp_right (formed.links id m).mpr)

/-- A new slot is taken only if all that is released is held. -/
theorem held_of_alloc_last (formed : doc.WellFormed) {n : Node ℓ}
    (last : (doc.alloc held n).1 = doc.size) (waits : (doc.node m).released = true) :
    held m = true := by
  unfold alloc at last
  dsimp only at last
  cases found : doc.pruneFree.reclaim? held with
  | none =>
    obtain ⟨top, member⟩ := formed.waiting m waits
    have stays : m ∈ doc.pruneFree.free := List.mem_filter.mpr ⟨member, waits⟩
    by_contra free
    have usable : doc.pruneFree.reusable held m = true := by
      show ((doc.node m).parent.isNone && !held m) = true
      simpa [top] using free
    obtain ⟨i, first⟩ := Option.isSome_iff_exists.mp
      (List.findIdx?_isSome.trans (List.any_eq_true.mpr ⟨m, stays, usable⟩))
    have inside := (List.findIdx?_eq_some_iff_getElem.mp first).1
    simp [reclaim?, first, List.getElem?_eq_getElem inside] at found
  | some taken =>
    obtain ⟨id, dropped⟩ := taken
    obtain ⟨member, -⟩ := reclaim?_eq_some held found
    have released : (doc.node id).released = true := (List.mem_filter.mp member).2
    simp only [found] at last
    rw [last, node_of_outside (Nat.le_refl _)] at released
    cases released

end Released

theorem Attached.not_released (formed : doc.WellFormed) (attached : doc.Attached m) :
    (doc.node m).released = false := by
  refine Bool.eq_false_iff.mpr fun released => ?_
  obtain rfl | ⟨p, parent, -⟩ := attached.parent
  · cases released.symm.trans formed.root_kept
  · cases (formed.waiting m released).1.symm.trans parent

theorem Allocates.inside_before {n : Node ℓ} (allocated : Allocates held doc doc' n id)
    (inside : m < doc'.size) (other : m ≠ id) : m < doc.size := by
  rw [allocated.size] at inside
  obtain last | ⟨reused, -⟩ := allocated.slot
  · rw [last, Nat.max_eq_right (Nat.le_succ _)] at inside
    exact Nat.lt_of_le_of_ne (Nat.le_of_lt_succ inside) (last ▸ other)
  · rwa [Nat.max_eq_left reused] at inside

/-- The slot of an attached node is not taken. -/
theorem Attached.apart {n : Node ℓ} (attached : doc.Attached m) (formed : doc.WellFormed)
    (allocated : Allocates held doc doc' n id) : m ≠ id := by
  rintro rfl
  obtain last | ⟨-, released, -⟩ := allocated.slot
  · exact Nat.ne_of_lt (attached.inside formed) last
  · cases (attached.not_released formed).symm.trans released

/-- No node is lost: one without a parent is the root, or waits to be used again. -/
def Accounted (doc : Document ℓ) : Prop :=
  ∀ n < doc.size, (doc.node n).parent = none → n = rootId ∨ (doc.node n).released = true

/-- When nothing waits to be used again, every slot is in the tree. -/
theorem Accounted.attached (accounted : doc.Accounted) (formed : doc.WellFormed)
    (none_waits : ∀ n, (doc.node n).released = false) {n : NodeId} (inside : n < doc.size) :
    doc.Attached n := by
  refine formed.acyclic.induction (C := fun n => n < doc.size → doc.Attached n) n
    (fun n ih inside => ?_) inside
  cases parent : (doc.node n).parent with
  | none =>
    obtain root | waits := accounted n inside parent
    · exact .inl root
    · cases (none_waits n).symm.trans waits
  | some p => exact (ih p parent (formed.parent_inside parent)).child parent

/-- Nodes were put below a node of the tree. If only nodes of the tree are held, the document has
grown only to a size at which every slot is in the tree. -/
structure Fills (held : NodeId → Bool) (doc doc' : Document ℓ) : Prop where
  formed : doc'.WellFormed
  grown : doc.size ≤ doc'.size
  accounted : doc'.Accounted
  kept : ∀ n, doc.Attached n → doc'.Attached n
  outside : ∀ n < doc.size, held n = true → doc'.Attached n → doc.Attached n
  full : (∀ n, held n = true → doc.Attached n) →
    doc'.size = doc.size ∨ ∀ n < doc'.size, doc'.Attached n

namespace Fills

theorem refl (formed : doc.WellFormed) (accounted : doc.Accounted) : Fills held doc doc :=
  ⟨formed, Nat.le_refl _, accounted, fun _ attached => attached, fun _ _ _ attached => attached,
    fun _ => .inl rfl⟩

theorem trans (first : Fills held doc doc') (second : Fills held doc' doc'') :
    Fills held doc doc'' where
  formed := second.formed
  grown := Nat.le_trans first.grown second.grown
  accounted := second.accounted
  kept n attached := second.kept n (first.kept n attached)
  outside n inside isHeld attached := first.outside n inside isHeld
    (second.outside n (Nat.lt_of_lt_of_le inside first.grown) isHeld attached)
  full upper := by
    obtain same | all := second.full fun n isHeld => first.kept n (upper n isHeld)
    · rw [same]
      exact (first.full upper).imp_right fun all n inside => second.kept n (all n inside)
    · exact .inr all

end Fills

section Adopt

variable {parent : NodeId} {n : Node ℓ} (formed : doc.WellFormed) (upper : doc.Attached parent)
variable (allocated : Allocates held doc doc' n id) (linked : Relinks doc' doc'' (some parent) id)
include formed upper allocated linked

omit upper in
/-- The way up from the root to a node of the tree passes no slot that is taken. -/
theorem attached_after (attached : doc.Attached m) : doc''.Attached m := by
  have stays : ∀ m p, doc.Attached p → (doc.node m).parent = some p →
      (doc''.node m).parent = some p := by
    intro m p attached parent
    have other : m ≠ id := (attached.child parent).apart formed allocated
    rw [linked.parent, if_neg other, allocated.parent m other, parent, if_neg]
    exact fun same => attached.apart formed allocated (Option.some.inj same)
  obtain rfl | above := attached
  · exact .inl rfl
  · induction above with
    | parent parent => exact .inr (.parent (stays _ _ (.inl rfl) parent))
    | further parent above ih => exact ih.child (stays _ _ (.inr above) parent)

theorem attached_taken : doc''.Attached id :=
  (attached_after formed allocated linked upper).child (by rw [linked.parent, if_pos rfl])

omit formed upper in
theorem attached_before (other : m ≠ id) (attached : doc''.Attached m) : doc.Attached m := by
  have before : ∀ {m p}, m ≠ id → (doc''.node m).parent = some p →
      (doc.node m).parent = some p ∧ p ≠ id := fun {m p} other below =>
    allocated.parent_before other (by rwa [linked.parent, if_neg other] at below)
  obtain rfl | above := attached
  · exact .inl rfl
  · refine .inr ?_
    induction above with
    | parent below => exact .parent (before other below).1
    | further below _ ih =>
      obtain ⟨below', other'⟩ := before other below
      exact .further below' (ih other')

end Adopt

/-- If a new slot is taken though only nodes of the tree are held, nothing waits to be
used again. -/
theorem none_waits_of_alloc_last (formed : doc.WellFormed) {n : Node ℓ}
    (heldAttached : ∀ n, held n = true → doc.Attached n) (last : (doc.alloc held n).1 = doc.size)
    (r : NodeId) : (doc.node r).released = false := by
  refine Bool.eq_false_iff.mpr fun waits => ?_
  have attached := heldAttached r (held_of_alloc_last formed last waits)
  cases (attached.not_released formed).symm.trans waits

section Filling

variable (formed : doc.WellFormed) (accounted : doc.Accounted) {parent : NodeId}
variable (upper : doc.Attached parent) {n : Node ℓ} (new : (Move.alloc n).Fits doc)
variable (inner : n.kind ≠ .fragment)
include formed accounted upper new inner

theorem accounted_adopt : (doc.adopt held parent n).2.Accounted := by
  have allocated := allocates_alloc formed held n
  have linked := relinks_adopt formed (upper.inside formed) new inner (upper.apart formed allocated)
  intro m inside top
  have other : m ≠ (doc.alloc held n).1 := by
    rintro rfl
    rw [linked.parent, if_pos rfl] at top
    cases top
  have before := allocated.inside_before (linked.size ▸ inside) other
  rw [linked.parent, if_neg other, allocated.parent m other] at top
  rw [linked.released, if_neg fun both => other both.1]
  split at top
  · rename_i below
    exact .inr (released_alloc formed held n before other (.inr below))
  · exact (accounted m before top).imp_right fun waits =>
      released_alloc formed held n before other (.inl waits)

/-- A new node below a node of the tree takes a slot that was released, if there is one. -/
theorem fills_adopt : Fills held doc (doc.adopt held parent n).2 ∧
    (doc.adopt held parent n).2.Attached (doc.alloc held n).1 := by
  have allocated := allocates_alloc formed held n
  have linked := relinks_adopt formed (upper.inside formed) new inner (upper.apart formed allocated)
  have there := attached_taken formed upper allocated linked
  have kept := fun m => attached_after (m := m) formed allocated linked
  obtain ⟨formed', grown, -⟩ := formed.adopt held (upper.inside formed) new
  refine ⟨⟨formed', grown, accounted_adopt formed accounted upper new inner, kept, ?_, ?_⟩, there⟩
  · intro m inside isHeld attached
    refine attached_before allocated linked ?_ attached
    rintro rfl
    obtain last | ⟨-, -, -, free⟩ := allocated.slot
    · exact Nat.ne_of_lt inside last
    · cases isHeld.symm.trans free
  · intro heldAttached
    obtain last | ⟨reused, -⟩ := allocated.slot
    · refine .inr fun m inside => ?_
      by_cases same : m = (doc.alloc held n).1
      · exact same ▸ there
      · have before := allocated.inside_before (linked.size ▸ inside) same
        have none_waits := none_waits_of_alloc_last formed heldAttached last
        exact kept m (accounted.attached formed none_waits before)
    · exact .inl (linked.size.trans (allocated.size.trans (Nat.max_eq_left reused)))

end Filling

mutual

theorem fills_graft : ∀ (m : Markup) (doc : Document ℓ) (parent : NodeId), doc.WellFormed →
    doc.Accounted → doc.Attached parent → Fills held doc (graft held parent m doc)
  | .element tag attributes children, doc, parent, formed, accounted, upper => by
    have new : (Move.alloc (elementNode tag attributes : Node ℓ)).Fits doc := ⟨rfl, rfl, rfl⟩
    obtain ⟨first, there⟩ := fills_adopt formed accounted upper new nofun
    exact first.trans (fills_graftAll children _ _ first.formed first.accounted there)
  | .text data, doc, _, formed, accounted, upper => by
    have new : (Move.alloc ({ kind := .text, data } : Node ℓ)).Fits doc := ⟨rfl, rfl, rfl⟩
    exact (fills_adopt formed accounted upper new nofun).1
  | .comment data, doc, _, formed, accounted, upper => by
    have new : (Move.alloc ({ kind := .comment, data } : Node ℓ)).Fits doc := ⟨rfl, rfl, rfl⟩
    exact (fills_adopt formed accounted upper new nofun).1

theorem fills_graftAll : ∀ (ms : List Markup) (doc : Document ℓ) (parent : NodeId),
    doc.WellFormed → doc.Accounted → doc.Attached parent →
      Fills held doc (graftAll held parent ms doc)
  | [], _, _, formed, accounted, _ => .refl formed accounted
  | m :: rest, doc, parent, formed, accounted, upper => by
    have first := fills_graft m doc parent formed accounted upper
    exact first.trans
      (fills_graftAll rest _ parent first.formed first.accounted (first.kept parent upper))

end

end ReactiveView.Document
