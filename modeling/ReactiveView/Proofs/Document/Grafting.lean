import ReactiveView.Proofs.Document.Label
import ReactiveView.Proofs.Document.Reuse
import ReactiveView.Proofs.Document.Showing

/-! Grafting puts the markup below a node and shows it there: new nodes come to the end of
the children, whatever the slots that they are put into held before, and what is sheltered
stays as it was. -/
namespace ReactiveView.Document

variable {ℓ : Type} {doc doc' doc'' : Document ℓ} {held : NodeId → Bool} {parent : NodeId}

/-- A node that can be grafted onto: its slot is not taken for the nodes that come below it. -/
structure Stock (held : NodeId → Bool) (doc : Document ℓ) (parent : NodeId) : Prop where
  formed : doc.WellFormed
  bounded : ∀ n, held n = true → n < doc.size
  inside : parent < doc.size
  sheltered : Sheltered held doc parent

/-- Nodes were added at the end of a child list, and nothing else that is sheltered has changed. -/
structure Extends (held : NodeId → Bool) (doc doc' : Document ℓ) (parent : NodeId)
    (added : List NodeId) : Prop where
  formed : doc'.WellFormed
  grown : doc.size ≤ doc'.size
  children : (doc'.node parent).children = (doc.node parent).children ++ added
  sheltered : ∀ n, Sheltered held doc n → Sheltered held doc' n
  own : ∀ n, Sheltered held doc n → (doc'.node n).own = (doc.node n).own
  others : ∀ n, Sheltered held doc n → n ≠ parent →
    (doc'.node n).children = (doc.node n).children

namespace Extends

variable {added later : List NodeId}

theorem refl (formed : doc.WellFormed) (parent : NodeId) : Extends held doc doc parent [] :=
  ⟨formed, Nat.le_refl _, (List.append_nil _).symm, fun _ sheltered => sheltered, fun _ _ => rfl,
    fun _ _ _ => rfl⟩

theorem trans (first : Extends held doc doc' parent added)
    (second : Extends held doc' doc'' parent later) :
    Extends held doc doc'' parent (added ++ later) where
  formed := second.formed
  grown := Nat.le_trans first.grown second.grown
  children := by rw [second.children, first.children, List.append_assoc]
  sheltered n sheltered := second.sheltered n (first.sheltered n sheltered)
  own n sheltered := (second.own n (first.sheltered n sheltered)).trans (first.own n sheltered)
  others n sheltered other :=
    (second.others n (first.sheltered n sheltered) other).trans (first.others n sheltered other)

theorem stock (extended : Extends held doc doc' parent added) (stock : Stock held doc parent) :
    Stock held doc' parent where
  formed := extended.formed
  bounded n isHeld := Nat.lt_of_lt_of_le (stock.bounded n isHeld) extended.grown
  inside := Nat.lt_of_lt_of_le stock.inside extended.grown
  sheltered := extended.sheltered parent stock.sheltered

theorem stock_added (extended : Extends held doc doc' parent added) (stock : Stock held doc parent)
    {n : NodeId} (member : n ∈ added) : Stock held doc' n ∧ Above doc' parent n := by
  have child : n ∈ (doc'.node parent).children :=
    extended.children ▸ List.mem_append_right _ member
  have below := (extended.formed.links parent n).mp child
  have root := extended.stock stock
  exact ⟨⟨root.formed, root.bounded, inside_of_parent below, .child root.sheltered child⟩,
    .parent below⟩

/-- What is added to a node that was added itself. -/
theorem inner {child : NodeId} (first : Extends held doc doc' parent [child])
    (second : Extends held doc' doc'' child later) (fresh : ∀ n, Sheltered held doc n → n ≠ child)
    (stock : Stock held doc parent) : Extends held doc doc'' parent [child] where
  formed := second.formed
  grown := Nat.le_trans first.grown second.grown
  children := by
    rw [second.others parent (first.stock stock).sheltered (fresh parent stock.sheltered),
      first.children]
  sheltered n kept := second.sheltered n (first.sheltered n kept)
  own n kept := (second.own n (first.sheltered n kept)).trans (first.own n kept)
  others n kept other :=
    (second.others n (first.sheltered n kept) (fresh n kept)).trans (first.others n kept other)

/-- What hangs below the node already shows what it showed. -/
theorem stable (extended : Extends held doc doc' parent added) (formed : doc.WellFormed) :
    Stable Node.own doc doc' fun n => Sheltered held doc n ∧ Above doc parent n where
  read n kept := extended.own n kept.1
  children n kept := extended.others n kept.1 (kept.2.ne formed).symm
  below n kept c member :=
    ⟨.child kept.1 member, .further ((formed.links n c).mp member) kept.2⟩

end Extends

/-- A new node is the last child then, and has no children of its own. -/
theorem extends_adopt (stock : Stock held doc parent) {n : Node ℓ} (new : (Move.alloc n).Fits doc)
    (inner : n.kind ≠ .fragment) :
    Extends held doc (doc.adopt held parent n).2 parent [(doc.alloc held n).1] ∧
      ((doc.adopt held parent n).2.node (doc.alloc held n).1).own = n.own ∧
      ((doc.adopt held parent n).2.node (doc.alloc held n).1).children = [] := by
  have allocated := allocates_alloc stock.formed held n
  have formed₁ := allocated.wellFormed stock.formed new.1 new.2.1 new.2.2
  obtain ⟨formed', grown, -⟩ := stock.formed.adopt held stock.inside new
  have apart : ∀ m, Sheltered held doc m → m ≠ (doc.alloc held n).1 :=
    fun m kept => allocated.apart stock.formed stock.bounded kept
  have children :=
    children_adopt_of_ne stock.formed stock.inside new inner (apart parent stock.sheltered)
  have own : ∀ m, ((doc.adopt held parent n).2.node m).own = ((doc.alloc held n).2.node m).own :=
    formed₁.own_append parent _
  have before : ∀ m, Sheltered held doc m → ((doc.adopt held parent n).2.node m).children =
      (doc.node m).children ++ if m = parent then [(doc.alloc held n).1] else [] := by
    intro m kept
    rw [children, allocated.children (apart m kept)]
  refine ⟨⟨formed', grown, ?_, fun m kept => ?_, fun m kept => ?_, fun m kept other => ?_⟩, ?_, ?_⟩
  · rw [before parent stock.sheltered, if_pos rfl]
  · induction kept with
    | root => exact .root
    | held isHeld => exact .held isHeld
    | child upper member ih => exact .child ih (before _ upper ▸ List.mem_append_left _ member)
  · exact (own m).trans (Node.content_inj (allocated.content m (apart m kept))).1
  · rw [before m kept, if_neg other, List.append_nil]
  · rw [own, allocated.new]
  · rw [children, if_neg (apart parent stock.sheltered).symm, allocated.new, new.2.1]
    rfl

section Adopting

variable {n : Node ℓ} (stock : Stock held doc parent) (new : (Move.alloc n).Fits doc)
  (inner : n.kind ≠ .fragment)
include stock new inner

/-- A new node can be grafted onto in its turn. -/
theorem stock_adopt : Stock held (doc.adopt held parent n).2 (doc.alloc held n).1 :=
  ((extends_adopt stock new inner).1.stock_added stock (List.mem_singleton_self _)).1

/-- What comes below a new node comes with it: its slot is none that was sheltered before. -/
theorem extends_adopt_below {added : List NodeId}
    (later : Extends held (doc.adopt held parent n).2 doc' (doc.alloc held n).1 added) :
    Extends held doc doc' parent [(doc.alloc held n).1] := by
  have fresh : ∀ m, Sheltered held doc m → m ≠ (doc.alloc held n).1 := fun m kept =>
    (allocates_alloc stock.formed held n).apart stock.formed stock.bounded kept
  exact (extends_adopt stock new inner).1.inner later fresh stock

end Adopting

mutual

/-- The markup is shown by one new node at the end of the children. -/
theorem extends_graft : ∀ (m : Markup) (doc : Document ℓ) (parent : NodeId), Stock held doc parent →
    ∃ n, Extends held doc (graft held parent m doc) parent [n] ∧
      Shows Node.own (graft held parent m doc) m n
  | .element tag attributes children, doc, parent, stock => by
    let top : Node ℓ := elementNode tag attributes
    have new : (Move.alloc top).Fits doc := ⟨rfl, rfl, rfl⟩
    have stock' := stock_adopt stock new nofun
    obtain ⟨-, own, childless⟩ := extends_adopt stock new nofun
    obtain ⟨ns, second, shown⟩ := extends_graftAll children _ _ stock'
    have whole : ((graft held parent (.element tag attributes children) doc).node
        (doc.alloc held top).1).children = ns := by
      refine second.children.trans ?_
      rw [childless, List.nil_append]
    have extended := extends_adopt_below stock new nofun second
    exact ⟨_, extended, (second.own _ stock'.sheltered).trans own, whole ▸ shown⟩
  | .text data, doc, parent, stock => by
    have new : (Move.alloc ({ kind := .text, data } : Node ℓ)).Fits doc := ⟨rfl, rfl, rfl⟩
    exact ⟨_, extends_adopt stock new nofun⟩
  | .comment data, doc, parent, stock => by
    have new : (Move.alloc ({ kind := .comment, data } : Node ℓ)).Fits doc := ⟨rfl, rfl, rfl⟩
    exact ⟨_, extends_adopt stock new nofun⟩

theorem extends_graftAll : ∀ (ms : List Markup) (doc : Document ℓ) (parent : NodeId),
    Stock held doc parent → ∃ ns, Extends held doc (graftAll held parent ms doc) parent ns ∧
      ShowsAll Node.own (graftAll held parent ms doc) ms ns
  | [], _, parent, stock => ⟨[], .refl stock.formed parent, trivial⟩
  | m :: ms, doc, parent, stock => by
    obtain ⟨n, first, shown⟩ := extends_graft m doc parent stock
    obtain ⟨ns, second, shownLater⟩ := extends_graftAll ms _ parent (first.stock stock)
    obtain ⟨stock', below⟩ := first.stock_added stock (List.mem_singleton_self n)
    refine ⟨n :: ns, first.trans second, ?_, shownLater⟩
    exact (second.stable first.formed).shows ⟨stock'.sheltered, below⟩ shown

end

/-- A childless node that markup is grafted onto shows the markup. -/
theorem showsAll_graftAll (stock : Stock held doc parent)
    (childless : (doc.node parent).children = [])
    (ms : List Markup) : ShowsAll Node.own (graftAll held parent ms doc) ms
      ((graftAll held parent ms doc).node parent).children := by
  obtain ⟨ns, extended, shown⟩ := extends_graftAll ms doc parent stock
  rwa [extended.children, childless, List.nil_append]

/-- Writing what is not read leaves what is shown. -/
theorem ShowsAll.of_same {β : Type} {read : Node ℓ → β}
    (same : ∀ n, read (doc'.node n) = read (doc.node n) ∧
      (doc'.node n).children = (doc.node n).children)
    {ms : List Markup} {n : NodeId} (shown : ShowsAll read doc ms (doc.node n).children) :
    ShowsAll read doc' ms (doc'.node n).children := by
  have stable : Stable read doc doc' fun _ => True :=
    ⟨fun n _ => (same n).1, fun n _ => (same n).2, fun _ _ _ _ => trivial⟩
  rw [(same n).2]
  exact stable.showsAll (fun _ _ => trivial) shown

/-- A parsed document shows what was parsed. -/
theorem showsAll_ofMarkup (markup : String) : ShowsAll Node.own (ofMarkup markup : Document ℓ)
    (Markup.parse markup) ((ofMarkup markup : Document ℓ).node rootId).children := by
  have stock : Stock (fun _ => false) (empty : Document ℓ) rootId :=
    ⟨wellFormed_empty, nofun, Nat.one_pos, .root⟩
  refine ShowsAll.of_same (fun n => ?_) (showsAll_graftAll stock rfl (Markup.parse markup))
  rw [ofMarkup, node_clearMutations]
  exact ⟨rfl, rfl⟩

variable {id : NodeId}

/-- A node shows the markup that is set, unless that was the markup there. -/
theorem showsAll_setInnerHtml (formed : doc.WellFormed)
    (bounded : ∀ n, held n = true → n < doc.size) (isHeld : held id = true)
    (inner : (doc.node id).isCharacterData = false) {markup : String}
    (other : doc.innerHtml id ≠ markup) : ShowsAll Node.own (doc.setInnerHtml held id markup)
      (Markup.parse markup) ((doc.setInnerHtml held id markup).node id).children := by
  have bounded' : ∀ n, held n = true → n < (doc.clearChildren id).size := fun n isHeld =>
    Nat.lt_of_lt_of_eq (bounded n isHeld) (formed.size_clearChildren id).symm
  have stock : Stock held (doc.clearChildren id) id :=
    ⟨formed.clearChildren id, bounded', bounded' id isHeld, .held isHeld⟩
  have shown := showsAll_graftAll stock (node_clearChildren formed id).1 (Markup.parse markup)
  rw [setInnerHtml, inner, Bool.false_or, if_neg (by simpa using other)]
  let flag : Node ℓ → Node ℓ := fun n =>
    { n with mutations := { n.mutations with innerHtml := true } }
  exact ShowsAll.of_same (fun n => ⟨update_keeps (f := flag) Node.own (fun _ => rfl) n,
    update_keeps (f := flag) Node.children (fun _ => rfl) n⟩) shown

end ReactiveView.Document
