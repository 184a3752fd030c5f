import ReactiveView.Proofs.Document.Rehanging

/-! The order of children that are moved. Moving all children of a node below a root keeps their
order, in one go as well as in a loop that moves the first child for as long as there is one. Below
a new fragment they are as they were below the node. -/
namespace ReactiveView.Document

variable {ℓ : Type} {doc doc' : Document ℓ} {a b : NodeId}

/-- Nodes that are placed leave their child lists, and come last in the new one. -/
theorem children_placeAll {parent : NodeId} (children : List NodeId) (formed : doc.WellFormed)
    (inside : parent < doc.size) (each : ∀ c ∈ children, Placeable doc parent c)
    (distinct : children.Nodup) (n : NodeId) :
    ((children.foldl (fun doc c => doc.place parent c) doc).node n).children =
      (doc.node n).children.filter (· ∉ children) ++ if n = parent then children else [] := by
  induction children generalizing doc with
  | nil =>
    rw [List.filter_eq_self.mpr fun c _ => decide_eq_true List.not_mem_nil, ite_self,
      List.append_nil]
    rfl
  | cons c rest ih =>
    obtain ⟨other, distinct⟩ := List.nodup_cons.mp distinct
    have first := each c List.mem_cons_self
    have moved := first.relinks formed inside
    have later : ∀ d ∈ rest, Placeable (doc.place parent c) parent d := fun d member =>
      first.after formed inside (each d (List.mem_cons_of_mem _ member))
    rw [List.foldl_cons, ih (first.wellFormed formed inside) (moved.size ▸ inside) later distinct,
      moved.children, List.filter_append, List.filter_filter]
    have both : (doc.node n).children.filter (fun d => decide (d ∉ rest) && d != c) =
        (doc.node n).children.filter (· ∉ c :: rest) := by
      refine List.filter_congr fun d _ => Bool.eq_iff_iff.mpr ?_
      simp [and_comm]
    rw [both, List.append_assoc]
    congr 1
    by_cases here : n = parent
    · simp [here, other]
    · simp [here, Ne.symm here]

/-- The children of one node come after those of another one. -/
structure HandsOver (a b : NodeId) (doc doc' : Document ℓ) : Prop where
  emptied : (doc'.node a).children = []
  received : (doc'.node b).children = (doc.node b).children ++ (doc.node a).children
  others : ∀ n, n ≠ a → n ≠ b → (doc'.node n).children = (doc.node n).children

/-- Placing the children of a node hands them over. -/
theorem handsOver_placeAll {base : Document ℓ} (formed : doc.WellFormed) (apart : b ≠ a)
    (same : ∀ n, n ≠ a → (base.node n).children = (doc.node n).children)
    (placed : ∀ n, (doc'.node n).children =
      (base.node n).children.filter (· ∉ (doc.node a).children) ++
      if n = b then (doc.node a).children else [])
    (own : (base.node a).children ⊆ (doc.node a).children) : HandsOver a b doc doc' := by
  have elsewhere : ∀ n, n ≠ a →
      (doc.node n).children.filter (· ∉ (doc.node a).children) = (doc.node n).children := by
    intro n other
    refine List.filter_eq_self.mpr fun c member => decide_eq_true fun member' => other ?_
    exact Option.some.inj
      (((formed.links n c).mp member).symm.trans ((formed.links a c).mp member'))
  refine ⟨?_, ?_, fun n other other' => ?_⟩
  · rw [placed, if_neg apart.symm, List.append_nil]
    exact List.filter_eq_nil_iff.mpr fun c member => by simpa using own member
  · rw [placed, if_pos rfl, same b apart, elsewhere b apart]
  · rw [placed, if_neg other', same n other, elsewhere n other, List.append_nil]

theorem handsOver_appendAll (formed : doc.WellFormed) (inside : b < doc.size)
    (top : (doc.node b).parent = none) (apart : b ≠ a) :
    HandsOver a b doc ((doc.node a).children.foldl (·.append b) doc) := by
  have each : ∀ c ∈ (doc.node a).children, Placeable doc b c := fun c =>
    placeable_of_top formed top
  rw [appendAll_eq _ formed inside each]
  exact handsOver_placeAll formed apart (fun _ _ => rfl)
    (children_placeAll _ formed inside each (formed.distinct a)) (List.Subset.refl _)

/-- The children of a fragment are handed over to a node that is not below it. -/
theorem handsOver_append (formed : doc.WellFormed) (inside : b < doc.size)
    (fragment : (doc.node a).kind = .fragment) (apart : b ≠ a) (outside : ¬ Above doc a b) :
    HandsOver a b doc (doc.append b a) := by
  have emptied := sheds_emptyFragment formed a
  rw [append_of_fragment formed fragment apart outside]
  refine handsOver_placeAll formed apart
    (fun n other => (Node.content_inj (emptied.content n other)).2.1)
    (children_placeAll _ (emptied.wellFormed formed) (emptied.size ▸ inside)
      (fun c => placeable_emptyFragment formed outside) (formed.distinct a)) ?_
  rw [emptied.childless]
  exact List.nil_subset _

/-- A loop that moves the first child of a node to another node, until there is none left. -/
inductive Drains (a b : NodeId) : Document ℓ → Document ℓ → Prop
  | done {doc : Document ℓ} : (doc.node a).children = [] → Drains a b doc doc
  | next {doc doc' : Document ℓ} {c : NodeId} :
      (doc.node a).children.head? = some c → Drains a b (doc.append b c) doc' →
      Drains a b doc doc'

/-- The loop moves all children below a root, and comes to an end. -/
theorem drains_iff (formed : doc.WellFormed) (inside : b < doc.size)
    (top : (doc.node b).parent = none) (apart : b ≠ a) :
    Drains a b doc doc' ↔ doc' = (doc.node a).children.foldl (·.append b) doc := by
  generalize children : (doc.node a).children = listed
  induction listed generalizing doc with
  | nil =>
    constructor
    · rintro (_ | ⟨first, -⟩)
      · rfl
      · rw [children] at first
        cases first
    · rintro rfl
      exact .done children
  | cons c rest ih =>
    have placeable : Placeable doc b c :=
      placeable_of_top formed top (a := a) (children ▸ List.mem_cons_self)
    have placed : doc.append b c = doc.place b c := append_of_placeable formed placeable
    have moved := placeable.relinks formed inside
    have remaining : ((doc.append b c).node a).children = rest := by
      have distinct := formed.distinct a
      rw [children] at distinct
      rw [placed, moved.children, children, List.filter_cons_of_neg (by simp),
        List.filter_eq_self.mpr ?_, if_neg fun same => apart (Option.some.inj same),
        List.append_nil]
      intro d member
      have : d ≠ c := by
        rintro rfl
        exact (List.nodup_cons.mp distinct).1 member
      simpa using this
    have further := ih (formed.append inside c) (formed.size_append b c ▸ inside)
      (by rw [placed, moved.parent, if_neg placeable.apart, top]) remaining
    rw [List.foldl_cons, ← further]
    constructor
    · rintro (none | ⟨first, drains⟩)
      · cases children.symm.trans none
      · rw [children] at first
        exact Option.some.inj first ▸ drains
    · exact .next (by rw [children]; rfl)

section Detached

variable {base : Document ℓ} {t f n : NodeId}

/-- The children of a node hang below a fragment that hangs nowhere. -/
structure Detached (t f : NodeId) (doc base : Document ℓ) : Prop where
  formed : base.WellFormed
  inside : f < base.size
  target_inside : t < base.size
  fragment : (base.node f).kind = .fragment
  apart : t ≠ f
  topless : (base.node f).parent = none
  outside : ¬ Above base f t
  emptied : (base.node t).children = []
  moved : (base.node f).children = (doc.node t).children
  others : ∀ n, n ≠ t → n ≠ f → (base.node n).children = (doc.node n).children
  own : ∀ n, n ≠ f → (base.node n).own = (doc.node n).own
  unheard : (base.node f).listeners = []

/-- The loop that moves the children of a held node to a new fragment ends, and detaches them. -/
theorem detached_drains {held : NodeId → Bool} {doc₁ : Document ℓ} (formed : doc.WellFormed)
    (allocated : Allocates held doc doc₁ { kind := .fragment } f) (inside : t < doc.size)
    (isHeld : held t = true) :
    Drains t f doc₁ ((doc₁.node t).children.foldl (·.append f) doc₁) ∧
      Detached t f doc ((doc₁.node t).children.foldl (·.append f) doc₁) := by
  have formed₁ := allocated.wellFormed formed rfl rfl rfl
  have apart : t ≠ f := by
    rintro rfl
    obtain last | ⟨-, -, -, free⟩ := allocated.slot
    · exact Nat.ne_of_lt inside last
    · cases isHeld.symm.trans free
  have topless : (doc₁.node f).parent = none := by rw [allocated.new]
  have childless : (doc₁.node f).children = [] := by rw [allocated.new]
  have rehangs : Rehangs t f doc₁ _ := rehangs_appendAll formed₁ allocated.inside topless
  have handsOver := handsOver_appendAll formed₁ allocated.inside topless apart.symm
  refine ⟨(drains_iff formed₁ allocated.inside topless apart.symm).mpr rfl,
    { formed := rehangs.formed
      inside := rehangs.size ▸ allocated.inside
      target_inside := rehangs.size ▸ Nat.lt_of_lt_of_le inside allocated.size_le
      fragment := by rw [(Node.own_inj (rehangs.own f)).1, allocated.new]
      apart := apart
      topless := by rw [rehangs.parent, topless, if_neg nofun]
      outside := fun above =>
        formed₁.not_above_self _ (rehangs.above_before (fun n parent => ?_) above)
      emptied := handsOver.emptied
      moved := ?_
      others := fun n other other' => ?_
      own := fun n other => (rehangs.own n).trans (Node.content_inj (allocated.content n other)).1
      unheard := by rw [(Node.own_inj (rehangs.own f)).2.2.2.2.2, allocated.new] }⟩
  · have member := (formed₁.links f n).mpr parent
    rw [childless] at member
    cases member
  · rw [handsOver.received, childless, List.nil_append,
      (Node.content_inj (allocated.content t apart)).2.1]
  · rw [handsOver.others n other other', (Node.content_inj (allocated.content n other')).2.1]

/-- What was reached from the node is reached from the fragment, which was not met itself. -/
theorem Detached.reached {through : Node ℓ → Prop} (detached : Detached t f doc base)
    (formed : doc.WellFormed) (free : (doc.node f).parent = none)
    (same : ∀ n, n ≠ f → through (doc.node n) → through (base.node n))
    (reached : Reached through doc t n) : Reached through base f n ∧ n ≠ f := by
  have other : ∀ {n p}, (doc.node n).parent = some p → n ≠ f := by
    rintro n p parent rfl
    cases free.symm.trans parent
  induction reached with
  | child parent =>
    refine ⟨.child ((detached.formed.links f _).mp ?_), other parent⟩
    rw [detached.moved]
    exact (formed.links t _).mpr parent
  | @further n p reached passes parent ih =>
    have below : p ≠ t := by
      rintro rfl
      exact formed.not_above_self _ reached.above
    refine ⟨.further ih.1 (same _ ih.2 passes) ((detached.formed.links p _).mp ?_), other parent⟩
    rw [detached.others p below ih.2]
    exact (formed.links p _).mpr parent

end Detached
end ReactiveView.Document
