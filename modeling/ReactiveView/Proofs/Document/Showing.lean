import ReactiveView.Proofs.Document.Region
import ReactiveView.Proofs.Markup.Parsed

/-! Trees of nodes that show markup. What is below a node of a forest is one such tree if every node
of it could have come from markup, and its written form is that of the markup. -/
namespace ReactiveView

/-- A node with nothing but what is written of it. -/
def Node.look {ℓ : Type} (n : Node ℓ) : Node ℓ :=
  { n.own with value := "", listeners := [] }

theorem Node.look_of_own {ℓ : Type} (m n : Node ℓ) (same : m.own = n.own) : m.look = n.look := by
  simp only [look, same]

theorem Node.look_inj {ℓ : Type} {m n : Node ℓ} (same : m.look = n.look) :
    m.kind = n.kind ∧ m.tag = n.tag ∧ m.attributes = n.attributes ∧ m.data = n.data := by
  simpa [look, own] using same

namespace Document

variable {ℓ β γ : Type} {doc doc' : Document ℓ} {read : Node ℓ → β} {read' : Node ℓ → γ}
  {e n : NodeId}

mutual

/-- The node and all nodes below it are those that the markup stands for, as far as
they are read. -/
def Shows (read : Node ℓ → β) (doc : Document ℓ) : Markup → NodeId → Prop
  | .element tag attributes children, n => read (doc.node n) = read (elementNode tag attributes) ∧
      ShowsAll read doc children (doc.node n).children
  | .text data, n => read (doc.node n) = read { kind := .text, data } ∧ (doc.node n).children = []
  | .comment data, n =>
    read (doc.node n) = read { kind := .comment, data } ∧ (doc.node n).children = []

def ShowsAll (read : Node ℓ → β) (doc : Document ℓ) : List Markup → List NodeId → Prop
  | [], [] => True
  | m :: ms, n :: ns => Shows read doc m n ∧ ShowsAll read doc ms ns
  | _, _ => False

end

deriving instance DecidableEq for Node

mutual

def decidableShows [DecidableEq β] (read : Node ℓ → β) (doc : Document ℓ) :
    (m : Markup) → (n : NodeId) → Decidable (Shows read doc m n)
  | .element tag attributes children, n =>
    have := decidableShowsAll read doc children (doc.node n).children
    inferInstanceAs (Decidable (read (doc.node n) = read (elementNode tag attributes) ∧
      ShowsAll read doc children (doc.node n).children))
  | .text data, n => inferInstanceAs (Decidable (read (doc.node n) = read { kind := .text, data } ∧
      (doc.node n).children = []))
  | .comment data, n =>
    inferInstanceAs (Decidable (read (doc.node n) = read { kind := .comment, data } ∧
      (doc.node n).children = []))

def decidableShowsAll [DecidableEq β] (read : Node ℓ → β) (doc : Document ℓ) :
    (ms : List Markup) → (ns : List NodeId) → Decidable (ShowsAll read doc ms ns)
  | [], [] => isTrue trivial
  | m :: ms, n :: ns =>
    have := decidableShows read doc m n
    have := decidableShowsAll read doc ms ns
    inferInstanceAs (Decidable (Shows read doc m n ∧ ShowsAll read doc ms ns))
  | [], _ :: _ => isFalse id
  | _ :: _, [] => isFalse id

end

instance [DecidableEq β] (read : Node ℓ → β) (doc : Document ℓ) (ms : List Markup)
    (ns : List NodeId) : Decidable (ShowsAll read doc ms ns) :=
  decidableShowsAll read doc ms ns

mutual

/-- Reading less of the nodes. -/
theorem Shows.weaken (coarser : ∀ m n, read m = read n → read' m = read' n) :
    ∀ {m : Markup} {n : NodeId}, Shows read doc m n → Shows read' doc m n
  | .element _ _ _, _, shown => ⟨coarser _ _ shown.1, ShowsAll.weaken coarser shown.2⟩
  | .text _, _, shown => ⟨coarser _ _ shown.1, shown.2⟩
  | .comment _, _, shown => ⟨coarser _ _ shown.1, shown.2⟩

theorem ShowsAll.weaken (coarser : ∀ m n, read m = read n → read' m = read' n) :
    ∀ {ms : List Markup} {ns : List NodeId}, ShowsAll read doc ms ns → ShowsAll read' doc ms ns
  | [], [], _ => trivial
  | _ :: _, _ :: _, shown => ⟨Shows.weaken coarser shown.1, ShowsAll.weaken coarser shown.2⟩

end

/-- Nodes that are read as before and have the children they had. -/
structure Stable (read : Node ℓ → β) (doc doc' : Document ℓ) (kept : NodeId → Prop) : Prop where
  read : ∀ n, kept n → read (doc'.node n) = read (doc.node n)
  children : ∀ n, kept n → (doc'.node n).children = (doc.node n).children
  below : ∀ n, kept n → ∀ c ∈ (doc.node n).children, kept c

mutual

theorem Stable.shows {kept : NodeId → Prop} (stable : Stable read doc doc' kept) :
    ∀ {m : Markup} {n : NodeId}, kept n → Shows read doc m n → Shows read doc' m n
  | .element _ _ _, n, stays, shown => by
    refine ⟨(stable.read n stays).trans shown.1, ?_⟩
    rw [stable.children n stays]
    exact stable.showsAll (stable.below n stays) shown.2
  | .text _, n, stays, shown =>
    ⟨(stable.read n stays).trans shown.1, (stable.children n stays).trans shown.2⟩
  | .comment _, n, stays, shown =>
    ⟨(stable.read n stays).trans shown.1, (stable.children n stays).trans shown.2⟩

theorem Stable.showsAll {kept : NodeId → Prop} (stable : Stable read doc doc' kept) :
    ∀ {ms : List Markup} {ns : List NodeId}, (∀ n ∈ ns, kept n) → ShowsAll read doc ms ns →
      ShowsAll read doc' ms ns
  | [], [], _, _ => trivial
  | _ :: _, _ :: _, stay, shown => by
    obtain ⟨stays, later⟩ := List.forall_mem_cons.mp stay
    exact ⟨stable.shows stays shown.1, stable.showsAll later shown.2⟩

end

theorem ShowsAll.of_mem {ms : List Markup} {ns : List NodeId} (shown : ShowsAll read doc ms ns)
    (member : n ∈ ns) : ∃ m ∈ ms, Shows read doc m n := by
  induction ms generalizing ns with
  | nil =>
    cases ns with
    | nil => cases member
    | cons _ _ => exact shown.elim
  | cons m ms ih =>
    cases ns with
    | nil => exact shown.elim
    | cons n' ns =>
      rcases List.mem_cons.mp member with rfl | member
      · exact ⟨m, List.mem_cons_self, shown.1⟩
      · obtain ⟨m', member', shown'⟩ := ih shown.2 member
        exact ⟨m', List.mem_cons_of_mem _ member', shown'⟩

/-- A tree that shows sound markup shows sound markup at each of its nodes. -/
theorem ShowsAll.below (formed : doc.WellFormed) {ms : List Markup}
    (shown : ShowsAll read doc ms (doc.node e).children) (sound : ∀ m ∈ ms, m.Sound)
    (above : Above doc e n) : ∃ m, m.Sound ∧ Shows read doc m n := by
  induction above with
  | parent parent =>
    obtain ⟨m, member, shown⟩ := shown.of_mem ((formed.links _ _).mpr parent)
    exact ⟨m, sound m member, shown⟩
  | further parent _ ih =>
    obtain ⟨m, soundParent, shownParent⟩ := ih
    have member := (formed.links _ _).mpr parent
    cases soundParent with
    | element _ _ _ _ inner =>
      obtain ⟨m, member, shown⟩ := shownParent.2.of_mem member
      exact ⟨m, inner m member, shown⟩
    | text =>
      rw [shownParent.2] at member
      cases member
    | comment =>
      rw [shownParent.2] at member
      cases member

/-- What holds of a node once it holds of its children, each with one level less, holds of every
node with as many levels as the document has nodes. -/
theorem WellFormed.descend_from (formed : doc.WellFormed) {motive : Nat → NodeId → Prop}
    (step : ∀ levels n, (∀ c ∈ (doc.node n).children, motive levels c) → motive (levels + 1) n)
    {levels : Nat} {n : NodeId} {passed : List NodeId} (inside : ∀ v ∈ n :: passed, v < doc.size)
    (once : (n :: passed).Nodup) (upper : ∀ v ∈ passed, Above doc v n)
    (enough : doc.size ≤ passed.length + levels) : motive levels n := by
  induction levels generalizing n passed with
  | zero =>
    have bound := List.Nodup.length_le_of_subset once
      fun v member => List.mem_range.mpr (inside v member)
    simp only [List.length_cons, List.length_range] at bound
    omega
  | succ levels ih =>
    refine step levels n fun c member => ?_
    have parent := (formed.links n c).mp member
    have upper' : ∀ v ∈ n :: passed, Above doc v c := by
      intro v member
      rcases List.mem_cons.mp member with rfl | member
      · exact .parent parent
      · exact .further parent (upper v member)
    have fresh : c ∉ n :: passed := fun member => formed.not_above_self c (upper' c member)
    refine ih (List.forall_mem_cons.mpr ⟨inside_of_parent parent, inside⟩)
      (List.nodup_cons.mpr ⟨fresh, once⟩) upper' ?_
    simp only [List.length_cons]
    omega

theorem WellFormed.descend (formed : doc.WellFormed) {motive : Nat → NodeId → Prop}
    (step : ∀ levels n, (∀ c ∈ (doc.node n).children, motive levels c) → motive (levels + 1) n)
    {n : NodeId} (inside : n < doc.size) : motive doc.size n :=
  formed.descend_from step (by simpa using inside) (List.nodup_singleton n) nofun (by simp)

theorem markupAll_map {branch : NodeId → Branch ℓ} : ∀ {ms : List Markup} {ns : List NodeId},
    (∀ n ∈ ns, ∀ m, Shows read doc m n → (branch n).markup = [m]) → ShowsAll read doc ms ns →
      Branch.markupAll (ns.map branch) = ms
  | [], [], _, _ => rfl
  | m :: ms, n :: ns, each, shown => by
    obtain ⟨first, later⟩ := List.forall_mem_cons.mp each
    rw [List.map_cons, Branch.markupAll, first m shown.1, markupAll_map later shown.2]
    rfl

theorem branchTo_eq (doc : Document ℓ) (levels : Nat) (n : NodeId) :
    doc.branchTo levels n = .mk n (doc.node n) (doc.branchTo levels n).children := by
  cases levels <;> rfl

/-- The markup below a node is what is shown there. -/
theorem innerMarkup_of_showsAll (formed : doc.WellFormed) (inside : e < doc.size) {ms : List Markup}
    (shown : ShowsAll Node.look doc ms (doc.node e).children) : doc.innerMarkup e = ms := by
  refine formed.descend (motive := fun levels n => ∀ ms,
    ShowsAll Node.look doc ms (doc.node n).children →
      Branch.markupAll (doc.branchTo levels n).children = ms) ?_ inside ms shown
  intro levels n lower ms shown
  refine markupAll_map (fun c member m shown => ?_) shown
  rw [branchTo_eq]
  cases m with
  | element tag attributes children =>
    obtain ⟨kind, tag', attributes', -⟩ := Node.look_inj shown.1
    simp only [Branch.markup, kind, tag', attributes', elementNode, lower c member children shown.2]
  | text data =>
    obtain ⟨kind, -, -, data'⟩ := Node.look_inj shown.1
    simp only [Branch.markup, kind, data']
  | comment data =>
    obtain ⟨kind, -, -, data'⟩ := Node.look_inj shown.1
    simp only [Branch.markup, kind, data']

theorem ShowsAll.nil_iff {ns : List NodeId} : ShowsAll read doc [] ns ↔ ns = [] := by
  cases ns with
  | nil => exact ⟨fun _ => rfl, fun _ => trivial⟩
  | cons _ _ => exact ⟨False.elim, nofun⟩

end Document

open Document in
/-- A node that could have come from markup. -/
inductive Node.Plain {ℓ : Type} (n : Node ℓ) : Prop
  | element {tag : String} {attributes : List (String × String)} :
      n.own = (elementNode tag attributes).own →
      Markup.IsTag tag → (∀ a ∈ attributes, Markup.IsName a.1) → (attributes.map Prod.fst).Nodup →
      (Markup.isVoid tag = true → n.children = []) → n.Plain
  | text {data : String} : n.own = ({ kind := .text, data } : Node ℓ).own → data ≠ "" →
      n.children = [] → n.Plain
  | comment {data : String} : n.own = ({ kind := .comment, data } : Node ℓ).own →
      ¬ "-->".toList <:+: data.toList → n.children = [] → n.Plain

/-- A node may have other children if it is an element whose tag can be closed. -/
theorem Node.Plain.congr {ℓ : Type} {m n : Node ℓ} (plain : m.Plain) (own : n.own = m.own)
    (children : n.children = m.children ∨ m.kind = .element ∧ Markup.isVoid m.tag = false) :
    n.Plain := by
  cases plain with
  | element same isTag names distinct void =>
    refine .element (own.trans same) isTag names distinct fun isVoid => ?_
    obtain children | ⟨-, inner⟩ := children
    · exact children.trans (void isVoid)
    · have tag := (Node.own_inj same).2.1
      cases isVoid.symm.trans ((congrArg Markup.isVoid tag.symm).trans inner)
  | text same some childless =>
    refine .text (own.trans same) some ?_
    obtain children | ⟨element, -⟩ := children
    · exact children.trans childless
    · cases element.symm.trans (Node.own_inj same).1
  | comment same absent childless =>
    refine .comment (own.trans same) absent ?_
    obtain children | ⟨element, -⟩ := children
    · exact children.trans childless
    · cases element.symm.trans (Node.own_inj same).1

namespace Document

variable {ℓ : Type} {doc : Document ℓ} {e n : NodeId}

theorem plain_of_shows {m : Markup} (sound : m.Sound) (shown : Shows Node.own doc m n) :
    (doc.node n).Plain := by
  cases sound with
  | element isTag names distinct void _ =>
    refine .element shown.1 isTag names distinct fun isVoid => ?_
    exact ShowsAll.nil_iff.mp (void isVoid ▸ shown.2)
  | text some => exact .text shown.1 some shown.2
  | comment absent => exact .comment shown.1 absent shown.2

theorem exists_showsAll_of_each : ∀ {ns : List NodeId},
    (∀ n ∈ ns, ∃ m : Markup, m.Sound ∧ Shows Node.own doc m n) →
      ∃ ms : List Markup, (∀ m ∈ ms, m.Sound) ∧ ShowsAll Node.own doc ms ns
  | [], _ => ⟨[], nofun, trivial⟩
  | n :: ns, each => by
    obtain ⟨⟨m, sound, shown⟩, later⟩ := List.forall_mem_cons.mp each
    obtain ⟨ms, soundAll, shownAll⟩ := exists_showsAll_of_each later
    exact ⟨m :: ms, List.forall_mem_cons.mpr ⟨sound, soundAll⟩, shown, shownAll⟩

/-- Nodes that could have come from markup, each by itself, show markup together. -/
theorem exists_showsAll (formed : doc.WellFormed) (inside : e < doc.size)
    (plain : ∀ n, Above doc e n → (doc.node n).Plain) :
    ∃ ms : List Markup, (∀ m ∈ ms, m.Sound) ∧ ShowsAll Node.own doc ms (doc.node e).children := by
  refine formed.descend (motive := fun _ e => (∀ n, Above doc e n → (doc.node n).Plain) →
    ∃ ms : List Markup, (∀ m ∈ ms, m.Sound) ∧ ShowsAll Node.own doc ms (doc.node e).children)
    (fun _ e lower plain => exists_showsAll_of_each fun c member => ?_) inside plain
  have parent := (formed.links e c).mp member
  obtain ⟨ms, sound, shown⟩ := lower c member fun n above => plain n (.trans (.parent parent) above)
  cases plain c (.parent parent) with
  | element same isTag names distinct void =>
    refine ⟨.element _ _ ms, .element isTag names distinct (fun isVoid => ?_) sound, same, shown⟩
    rw [void isVoid] at shown
    cases ms with
    | nil => rfl
    | cons _ _ => exact shown.elim
  | text same some childless => exact ⟨.text _, .text some, same, childless⟩
  | comment same absent childless => exact ⟨.comment _, .comment absent, same, childless⟩

end Document
end ReactiveView
