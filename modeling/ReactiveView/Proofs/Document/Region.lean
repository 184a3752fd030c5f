import ReactiveView.Proofs.Document.Renewal

/-! Regions of a document: what hangs below a node, the way up from it, and the nodes that a change
further down cannot reach. -/
namespace ReactiveView

/-- A node with all that says what it is and where it is, and with its text. Its form value and its
listeners may be others. -/
structure Node.Stays {ℓ : Type} (m n : Node ℓ) : Prop where
  kind : n.kind = m.kind
  attributes : n.attributes = m.attributes
  data : n.data = m.data
  parent : n.parent = m.parent
  children : n.children = m.children

theorem Node.Stays.refl {ℓ : Type} (n : Node ℓ) : n.Stays n :=
  ⟨rfl, rfl, rfl, rfl, rfl⟩

theorem Node.Stays.trans {ℓ : Type} {l m n : Node ℓ} (first : l.Stays m) (second : m.Stays n) :
    l.Stays n :=
  ⟨second.kind.trans first.kind, second.attributes.trans first.attributes,
    second.data.trans first.data, second.parent.trans first.parent,
    second.children.trans first.children⟩

namespace Document

variable {ℓ : Type} {doc doc' doc'' : Document ℓ} {top x p n : NodeId}

section Above

theorem Above.of_parent {a : NodeId} (above : Above doc a n)
    (parent : (doc.node n).parent = some p) :
    a = p ∨ Above doc a p := by
  cases above with
  | parent here => exact .inl (Option.some.inj (here.symm.trans parent))
  | further here above =>
    obtain rfl := Option.some.inj (here.symm.trans parent)
    exact .inr above

/-- There is one way up from a node. -/
theorem Above.linear {a b : NodeId} (first : Above doc a n) (second : Above doc b n) :
    a = b ∨ Above doc a b ∨ Above doc b a := by
  induction first with
  | parent parent =>
    rcases second.of_parent parent with same | above
    · exact .inl same.symm
    · exact .inr (.inr above)
  | further parent above ih =>
    rcases second.of_parent parent with rfl | above'
    · exact .inr (.inl above)
    · exact ih above'

theorem Above.ne (formed : doc.WellFormed) {a : NodeId} (above : Above doc a n) : a ≠ n := by
  rintro rfl
  exact formed.not_above_self a above

theorem Above.congr {a : NodeId} (above : Above doc a n)
    (same : ∀ m, m = n ∨ Above doc m n → (doc'.node m).parent = (doc.node m).parent) :
    Above doc' a n := by
  induction above with
  | parent parent => exact .parent ((same _ (.inl rfl)).trans parent)
  | further parent above ih =>
    refine .further ((same _ (.inl rfl)).trans parent) (ih fun m line => same m (.inr ?_))
    rcases line with rfl | above
    · exact .parent parent
    · exact .further parent above

theorem Above.first {a : NodeId} (above : Above doc a n) :
    ∃ y, (doc.node y).parent = some a ∧ (n = y ∨ Above doc y n) := by
  induction above with
  | parent parent => exact ⟨_, parent, .inl rfl⟩
  | further parent _ ih =>
    obtain ⟨y, child, rfl | above⟩ := ih
    · exact ⟨_, child, .inr (.parent parent)⟩
    · exact ⟨y, child, .inr (.further parent above)⟩

/-- The way up from a node that is no new one was there before. -/
theorem Renews.above_before {held : NodeId → Bool} {opened fresh : NodeId → Prop}
    (renews : Renews held opened fresh doc doc') {a : NodeId} (old : ¬ fresh n)
    (above : Above doc' a n) : Above doc a n := by
  induction above with
  | parent parent => exact .parent (renews.parent_before _ _ old parent).2
  | further parent _ ih =>
    obtain ⟨oldParent, before⟩ := renews.parent_before _ _ old parent
    exact .further before (ih oldParent)

end Above

section Reached

/-- A node is below another one, and the nodes in between let pass. -/
inductive Reached (through : Node ℓ → Prop) (doc : Document ℓ) (top : NodeId) : NodeId → Prop
  | child {n : NodeId} : (doc.node n).parent = some top → Reached through doc top n
  | further {n p : NodeId} : Reached through doc top p → through (doc.node p) →
      (doc.node n).parent = some p → Reached through doc top n

variable {through : Node ℓ → Prop}

theorem Reached.above (reached : Reached through doc top n) : Above doc top n := by
  induction reached with
  | child parent => exact .parent parent
  | further _ _ parent ih => exact .further parent ih

theorem Reached.parent (reached : Reached through doc top n) : ∃ p, (doc.node n).parent = some p ∧
    (p = top ∨ Reached through doc top p ∧ through (doc.node p)) := by
  cases reached with
  | child parent => exact ⟨top, parent, .inl rfl⟩
  | further reached passes parent => exact ⟨_, parent, .inr ⟨reached, passes⟩⟩

/-- What is between the two is reached as well. -/
theorem Reached.between (topless : (doc.node top).parent = none)
    (reached : Reached through doc top n) {a : NodeId} (above : Above doc a n) (lower : a ≠ top) :
    Reached through doc top a ∧ through (doc.node a) := by
  have notAbove : ¬ Above doc a top := by
    intro above
    obtain ⟨p, parent⟩ := above.parent_eq_some
    cases topless.symm.trans parent
  induction reached with
  | child parent =>
    rcases above.of_parent parent with same | above
    · exact (lower same).elim
    · exact (notAbove above).elim
  | further reached passes parent ih =>
    rcases above.of_parent parent with rfl | above
    · exact ⟨reached, passes⟩
    · exact ih above

/-- What is reached is a child, or is reached from a child that lets pass. -/
theorem Reached.first (reached : Reached through doc top n) :
    (doc.node n).parent = some top ∨ ∃ x, (doc.node x).parent = some top ∧ through (doc.node x) ∧
      Reached through doc x n := by
  induction reached with
  | child parent => exact .inl parent
  | further reached passes parent ih =>
    rcases ih with here | ⟨x, here, passes', reached'⟩
    · exact .inr ⟨_, here, passes, .child parent⟩
    · exact .inr ⟨x, here, passes', .further reached' passes parent⟩

end Reached

section Spares

/-- Nodes together with all that is above them, up to the top. -/
def Closed (top : NodeId) (doc : Document ℓ) (kept : NodeId → Prop) : Prop :=
  ∀ n, kept n → n = top ∨ ∃ p, kept p ∧ (doc.node n).parent = some p

/-- Whatever is not below one of the nodes stays. -/
def Spares (top : NodeId) (avoided : NodeId → Prop) (doc doc' : Document ℓ) : Prop :=
  ∀ kept, Closed top doc kept → (∀ n, avoided n → ¬ kept n) →
    ∀ n, kept n → (doc.node n).Stays (doc'.node n)

variable {avoided avoided' : NodeId → Prop}

theorem Closed.congr {kept : NodeId → Prop} (closed : Closed top doc kept)
    (stays : ∀ n, kept n → (doc.node n).Stays (doc'.node n)) : Closed top doc' kept := by
  intro n isKept
  refine (closed n isKept).imp_right ?_
  rintro ⟨p, keptParent, parent⟩
  exact ⟨p, keptParent, (stays n isKept).parent.trans parent⟩

theorem Closed.inside {kept : NodeId → Prop} (closed : Closed top doc kept)
    (inside : top < doc.size) : ∀ n, kept n → n < doc.size := by
  intro n isKept
  obtain rfl | ⟨p, -, parent⟩ := closed n isKept
  · exact inside
  · exact inside_of_parent parent

theorem Spares.refl (top : NodeId) (avoided : NodeId → Prop) (doc : Document ℓ) :
    Spares top avoided doc doc :=
  fun _ _ _ _ _ => .refl _

theorem Spares.trans (first : Spares top avoided doc doc')
    (second : Spares top avoided doc' doc'') :
    Spares top avoided doc doc'' := by
  intro kept closed apart n isKept
  have stays := first kept closed apart
  exact (stays n isKept).trans (second kept (closed.congr stays) apart n isKept)

/-- It is no less to spare what is not below the children of a node. -/
theorem Spares.widen (spares : Spares top avoided doc doc') (topless : (doc.node top).parent = none)
    (wider : ∀ n, avoided n → avoided' n ∨ ∃ p, avoided' p ∧ (doc.node n).parent = some p) :
    Spares top avoided' doc doc' := by
  intro kept closed apart
  refine spares kept closed fun n avoids isKept => ?_
  rcases wider n avoids with here | ⟨p, above, parent⟩
  · exact apart n here isKept
  · obtain rfl | ⟨q, keptParent, parent'⟩ := closed n isKept
    · cases topless.symm.trans parent
    · obtain rfl := Option.some.inj (parent.symm.trans parent')
      exact apart p above keptParent

/-- The way up from a node to the top. -/
theorem closed_line (below : n = top ∨ Above doc top n) :
    Closed top doc fun m => m = n ∨ Above doc m n ∧ (m = top ∨ Above doc top m) := by
  intro m line
  have lower : m = top ∨ Above doc top m := by
    rcases line with rfl | ⟨-, lower⟩
    · exact below
    · exact lower
  refine lower.imp_right fun above => ?_
  obtain ⟨p, parent⟩ := above.parent_eq_some
  refine ⟨p, .inr ⟨?_, (above.of_parent parent).imp Eq.symm id⟩, parent⟩
  rcases line with rfl | ⟨line, -⟩
  · exact .parent parent
  · exact .trans (.parent parent) line

/-- A node, the way up from it, and all that is below it. -/
theorem closed_family (below : Above doc top n) : Closed top doc fun m =>
    m = n ∨ Above doc m n ∧ (m = top ∨ Above doc top m) ∨ Above doc n m := by
  intro m family
  rcases family with rfl | line | lower
  · exact (closed_line (.inr below) m (.inl rfl)).imp_right fun ⟨p, line, parent⟩ =>
      ⟨p, line.imp_right .inl, parent⟩
  · exact (closed_line (.inr below) m (.inr line)).imp_right fun ⟨p, line, parent⟩ =>
      ⟨p, line.imp_right .inl, parent⟩
  · obtain ⟨p, parent⟩ := lower.parent_eq_some
    exact .inr ⟨p, (lower.of_parent parent).imp Eq.symm .inr, parent⟩

/-- Two children of one node have nothing below them in common. -/
theorem not_above_sibling (formed : doc.WellFormed) {y : NodeId}
    (parent : (doc.node x).parent = some p) (parent' : (doc.node y).parent = some p) :
    ¬ Above doc x y := by
  intro above
  rcases above.of_parent parent' with rfl | above
  · exact formed.not_above_self x (.parent parent)
  · exact formed.not_above_self p (.trans (.parent parent) above)

theorem siblings_apart (top : NodeId) (formed : doc.WellFormed) {y : NodeId} (other : y ≠ x)
    (parent : (doc.node x).parent = some p) (parent' : (doc.node y).parent = some p) :
    ¬ (y = x ∨ Above doc y x ∧ (y = top ∨ Above doc top y) ∨ Above doc x y) := by
  rintro (same | ⟨above, -⟩ | above)
  · exact other same
  · exact not_above_sibling formed parent' parent above
  · exact not_above_sibling formed parent parent' above

theorem Closed.guarded {held : NodeId → Bool} {kept : NodeId → Prop} (closed : Closed top doc kept)
    (isHeld : held top = true) (inside : top < doc.size) (apart : ¬ kept x) :
    Guarded held (· = x) doc kept := by
  refine ⟨closed.inside inside, fun m keptNode => ?_⟩
  obtain rfl | ⟨p, keptParent, parent⟩ := closed m keptNode
  · exact .inl isHeld
  · exact .inr ⟨p, keptParent, fun same => apart (same ▸ keptParent), parent⟩

/-- The slot of a node that is held is not taken. -/
theorem Renews.old_of_held {held : NodeId → Bool} {opened fresh : NodeId → Prop}
    (renews : Renews held opened fresh doc doc') (isHeld : held n = true) (inside : n < doc.size) :
    ¬ fresh n := by
  have guarded : Guarded held opened doc (· = n) :=
    ⟨fun m same => same ▸ inside, fun m same => .inl (same ▸ isHeld)⟩
  exact (renews.spared _ guarded n rfl).1

/-- Renewing the children of a node spares what is not below it. -/
theorem Renews.spares {held : NodeId → Bool} {fresh : NodeId → Prop}
    (renews : Renews held (· = x) fresh doc doc') (isHeld : held top = true)
    (inside : top < doc.size) (topless : (doc.node top).parent = none) :
    Spares top (· = x) doc doc' := by
  intro kept closed apart n isKept
  have notOpened : ∀ p, kept p → p ≠ x := by
    rintro p keptParent rfl
    exact apart p rfl keptParent
  obtain ⟨old, stays⟩ :=
    renews.spared kept (closed.guarded isHeld inside (apart x rfl)) n isKept
  obtain ⟨kind, attributes, -, -⟩ := Node.shape_inj (renews.shape n old)
  have keptParent : ∀ p, (doc.node n).parent = some p → kept p := by
    intro p parent
    obtain rfl | ⟨q, keptParent, parent'⟩ := closed n isKept
    · cases topless.symm.trans parent
    · exact Option.some.inj (parent'.symm.trans parent) ▸ keptParent
  have own := renews.own n old fun _ p parent => notOpened p (keptParent p parent)
  refine ⟨kind, attributes, (Node.own_inj own).2.2.2.1, ?_,
    renews.children n old (notOpened n isKept)⟩
  cases parent : (doc.node n).parent with
  | none =>
    cases now : (doc'.node n).parent with
    | none => rfl
    | some p => cases parent.symm.trans (renews.parent_before n p old now).2
  | some p =>
    exact stays p (keptParent p parent) (notOpened p (keptParent p parent)) parent

/-- The way up from the children of a node is spared with the node. -/
theorem Spares.line (spares : Spares top avoided doc doc') (topless : (doc.node top).parent = none)
    (formed : doc.WellFormed) (formed' : doc'.WellFormed) (below : p = top ∨ Above doc top p)
    (children : ∀ m, avoided m → (doc.node m).parent = some p) :
    (p = top ∨ Above doc' top p) ∧ (doc.node p).Stays (doc'.node p) ∧
      ∀ n, (doc.node n).parent = some p → (doc'.node n).parent = some p := by
  have onLine := spares _ (closed_line below) fun m avoids line => by
    have lower : Above doc p m := .parent (children m avoids)
    rcases line with rfl | ⟨above, -⟩
    · exact formed.not_above_self m lower
    · exact formed.not_above_self m (.trans above lower)
  have here := onLine p (.inl rfl)
  refine ⟨?_, here, fun n parent => ?_⟩
  · refine below.imp_right fun above => above.congr fun m line => ?_
    refine (onLine m (line.imp_right fun upper => ⟨upper, ?_⟩)).parent
    rcases upper.linear above with same | higher | lower
    · exact .inl same
    · obtain ⟨q, parent⟩ := higher.parent_eq_some
      cases topless.symm.trans parent
    · exact .inr lower
  · rw [← formed'.links, here.children, formed.links]
    exact parent

/-- What is reached below a spared node was reached before. -/
theorem Spares.reached (spares : Spares top avoided doc doc') (formed : doc.WellFormed)
    (formed' : doc'.WellFormed) (below : Above doc top x)
    (apart : ∀ m, avoided m →
      ¬ (m = x ∨ Above doc m x ∧ (m = top ∨ Above doc top m) ∨ Above doc x m))
    (reached : Reached (·.kind = .element) doc' x n) :
    Reached (·.kind = .element) doc x n ∧ (doc.node n).Stays (doc'.node n) := by
  have stays := spares _ (closed_family below) apart
  have parent : ∀ {m q}, (q = x ∨ Above doc x q) → (doc'.node m).parent = some q →
      (doc.node m).parent = some q := by
    intro m q line parent
    rw [← formed.links, ← (stays q (line.imp_right .inr)).children, formed'.links]
    exact parent
  induction reached with
  | child child =>
    have before := parent (.inl rfl) child
    exact ⟨.child before, stays _ (.inr (.inr (.parent before)))⟩
  | further _ passes child ih =>
    obtain ⟨reached, same⟩ := ih
    have before := parent (.inr reached.above) child
    exact ⟨.further reached (same.kind ▸ passes) before,
      stays _ (.inr (.inr (.further before reached.above)))⟩

end Spares
end Document
end ReactiveView
