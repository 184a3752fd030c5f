import ReactiveView.Proofs.Document.Operation

/-! What writing text or markup below a node leaves of all other nodes. Its children come and go,
and slots are taken for new nodes, but a node that is held or that hangs in a tree elsewhere keeps
its slot, its place and all that is its own. -/
namespace ReactiveView

/-- A node with neither its place nor its text. -/
def Node.shape {ℓ : Type} (n : Node ℓ) : Node ℓ :=
  { n.own with data := "" }

theorem Node.shape_inj {ℓ : Type} {m n : Node ℓ} (same : m.shape = n.shape) :
    m.kind = n.kind ∧ m.attributes = n.attributes ∧ m.value = n.value ∧
      m.listeners = n.listeners := by
  simp only [shape, own, mk.injEq] at same
  obtain ⟨kind, -, attributes, -, value, -, -, listeners, -⟩ := same
  exact ⟨kind, attributes, value, listeners⟩

theorem Node.shape_of_own {ℓ : Type} {m n : Node ℓ} (same : m.own = n.own) : m.shape = n.shape := by
  simp only [shape, same]

namespace Document

variable {ℓ : Type} {held : NodeId → Bool} {opened fresh : NodeId → Prop} {doc doc' : Document ℓ}

/-- Nodes whose slots are not taken: each of them is held, or hangs below another of them whose
children do not change. -/
structure Guarded (held : NodeId → Bool) (opened : NodeId → Prop) (doc : Document ℓ)
    (kept : NodeId → Prop) : Prop where
  inside : ∀ n, kept n → n < doc.size
  guard : ∀ n, kept n → held n = true ∨ ∃ p, kept p ∧ ¬ opened p ∧ (doc.node n).parent = some p

/-- New nodes were put into the fresh slots, and the children of the opened nodes came and went. A
text below an opened node may have been rewritten in its place. -/
structure Renews (held : NodeId → Bool) (opened fresh : NodeId → Prop) (doc doc' : Document ℓ) :
    Prop where
  grown : doc.size ≤ doc'.size
  own : ∀ n, ¬ fresh n →
    ((doc.node n).kind = .text → ∀ p, (doc.node n).parent = some p → ¬ opened p) →
      (doc'.node n).own = (doc.node n).own
  shape : ∀ n, ¬ fresh n → (doc'.node n).shape = (doc.node n).shape
  silent : ∀ n, fresh n → (doc'.node n).listeners = []
  children : ∀ n, ¬ fresh n → ¬ opened n → (doc'.node n).children = (doc.node n).children
  parent_before : ∀ n p, ¬ fresh n → (doc'.node n).parent = some p →
    ¬ fresh p ∧ (doc.node n).parent = some p
  spared : ∀ kept, Guarded held opened doc kept → ∀ n, kept n → ¬ fresh n ∧
    ∀ p, kept p → ¬ opened p → (doc.node n).parent = some p → (doc'.node n).parent = some p

theorem Renews.refl (doc : Document ℓ) : Renews held opened (fun _ => False) doc doc where
  grown := Nat.le_refl _
  own _ _ _ := rfl
  shape _ _ := rfl
  silent _ never := never.elim
  children _ _ _ := rfl
  parent_before _ _ _ parent := ⟨id, parent⟩
  spared _ _ _ _ := ⟨id, fun _ _ _ parent => parent⟩

/-- Opening a node that is fresh opens nothing that was there before. -/
theorem Renews.trans {opened' fresh' : NodeId → Prop} {doc'' : Document ℓ}
    (first : Renews held opened fresh doc doc') (second : Renews held opened' fresh' doc' doc'')
    (covered : ∀ n, opened' n → opened n ∨ fresh n) :
    Renews held opened (fun n => fresh n ∨ fresh' n) doc doc'' where
  grown := Nat.le_trans first.grown second.grown
  own n old stays := by
    have before := first.own n (fun new => old (.inl new)) stays
    refine (second.own n (fun new => old (.inr new)) fun text p parent isOpen => ?_).trans before
    obtain ⟨oldParent, parent⟩ := first.parent_before n p (fun new => old (.inl new)) parent
    have text := (Node.own_inj before).1.symm.trans text
    exact (covered p isOpen).elim (stays text p parent) oldParent
  shape n old :=
    (second.shape n fun new => old (.inr new)).trans (first.shape n fun new => old (.inl new))
  silent n new := by
    by_cases later : fresh' n
    · exact second.silent n later
    · have same := (Node.shape_inj (second.shape n later)).2.2.2
      exact same.trans (first.silent n (new.resolve_right later))
  children n old closed := by
    have before := first.children n (fun new => old (.inl new)) closed
    refine (second.children n (fun new => old (.inr new)) fun isOpen => ?_).trans before
    exact (covered n isOpen).elim closed fun new => old (.inl new)
  parent_before n p old parent := by
    obtain ⟨late, parent⟩ := second.parent_before n p (fun new => old (.inr new)) parent
    obtain ⟨early, parent⟩ := first.parent_before n p (fun new => old (.inl new)) parent
    exact ⟨fun new => new.elim early late, parent⟩
  spared kept guarded n member := by
    obtain ⟨early, stays⟩ := first.spared kept guarded n member
    have closed : ∀ p, kept p → ¬ opened p → ¬ opened' p := fun p keptParent notOpen isOpen =>
      (covered p isOpen).elim notOpen (first.spared kept guarded p keptParent).1
    have between : Guarded held opened' doc' kept := by
      refine ⟨fun m keptNode => Nat.lt_of_lt_of_le (guarded.inside m keptNode) first.grown,
        fun m keptNode => (guarded.guard m keptNode).imp_right ?_⟩
      rintro ⟨p, keptParent, notOpen, parent⟩
      exact ⟨p, keptParent, closed p keptParent notOpen,
        (first.spared kept guarded m keptNode).2 p keptParent notOpen parent⟩
    obtain ⟨late, remains⟩ := second.spared kept between n member
    refine ⟨fun new => new.elim early late, fun p keptParent notOpen parent => ?_⟩
    exact remains p keptParent (closed p keptParent notOpen) (stays p keptParent notOpen parent)

/-- A write to the mutation flags of a node. -/
theorem renews_flag (doc : Document ℓ) (id : NodeId) {f : Node ℓ → Node ℓ}
    (kept : ∀ n, (f n).own = n.own ∧ (f n).children = n.children ∧ (f n).parent = n.parent) :
    Renews held opened (fun _ => False) doc (doc.update id f) where
  grown := Nat.le_of_eq (size_update doc id f).symm
  own n _ _ := update_keeps Node.own (fun n => (kept n).1) n
  shape n _ := update_keeps Node.shape (fun n => Node.shape_of_own (kept n).1) n
  silent _ never := never.elim
  children n _ _ := update_keeps Node.children (fun n => (kept n).2.1) n
  parent_before n p _ parent := by
    rw [update_keeps Node.parent fun n => (kept n).2.2] at parent
    exact ⟨fun never => never, parent⟩
  spared _ _ n _ := by
    refine ⟨fun never => never, fun p _ _ parent => ?_⟩
    rw [update_keeps Node.parent fun n => (kept n).2.2]
    exact parent

theorem renews_clearChildren (formed : doc.WellFormed) (id : NodeId) :
    Renews held (· = id) (fun _ => False) doc (doc.clearChildren id) := by
  rw [clearChildren_eq]
  split
  · exact Renews.refl doc
  · have dropped := sheds formed id doc.free
    have first : Renews held (· = id) (fun _ => False) doc (doc.shed id) :=
      { grown := Nat.le_of_eq dropped.size.symm
        own := fun n _ _ => dropped.own_of n
        shape := fun n _ => Node.shape_of_own (dropped.own_of n)
        silent := fun _ never => never.elim
        children := fun n _ closed => (dropped.children n).trans (if_neg closed)
        parent_before := fun n p _ parent => ⟨fun never => never, (dropped.parent_before parent).1⟩
        spared := fun _ _ n _ => ⟨fun never => never, fun p _ closed parent => by
          rw [dropped.parent]
          refine (if_neg fun same => ?_).trans parent
          exact closed (Option.some.inj (parent.symm.trans same))⟩ }
    have second : Renews held (· = id) (fun _ => False) (doc.shed id)
        ((doc.shed id).update id flagChildren) := renews_flag _ id fun _ => ⟨rfl, rfl, rfl⟩
    have both := first.trans second fun n isOpen => .inl isOpen
    simpa only [or_self] using both

/-- A node without a parent, which is no fragment, comes to the end of a child list. -/
theorem append_single (formed : doc.WellFormed) {parent child : NodeId} (inside : parent < doc.size)
    (top : (doc.node child).parent = none)
    (inner : (doc.node child).kind ≠ .fragment) :
    (∀ n, n ≠ child → ((doc.append parent child).node n).parent = (doc.node n).parent) ∧
      ∀ n, n ≠ parent → ((doc.append parent child).node n).children = (doc.node n).children := by
  by_cases upper : child = parent ∨ Above doc child parent
  · rw [append_of_upper formed upper]
    exact ⟨fun _ _ => rfl, fun _ _ => rfl⟩
  · obtain ⟨apart, outside⟩ := not_or.mp upper
    have placeable := placeable_of_inner inner (Ne.symm apart) outside
    have moved := placeable.relinks formed inside
    rw [append_of_placeable formed placeable]
    refine ⟨fun n other => (moved.parent n).trans (if_neg other), fun n other => ?_⟩
    have elsewhere : some parent ≠ some n := fun same => other (Option.some.inj same).symm
    rw [moved.children, if_neg elsewhere, List.append_nil]
    exact formed.filter_children (top ▸ nofun)

/-- A new node that listens to nothing is put below a node. -/
theorem renews_adopt (formed : doc.WellFormed) {parent : NodeId} (inside : parent < doc.size)
    {n : Node ℓ} (new : (Move.alloc n).Fits doc) (inner : n.kind ≠ .fragment)
    (quiet : n.listeners = []) :
    Renews held (· = parent) (· = (doc.alloc held n).1) doc (doc.adopt held parent n).2 := by
  have allocated := allocates_alloc formed held n
  have formed' := allocated.wellFormed formed new.1 new.2.1 new.2.2
  have top : ((doc.alloc held n).2.node (doc.alloc held n).1).parent = none := by
    rw [allocated.new]
    exact new.1
  obtain ⟨parents, children⟩ := append_single formed'
    (Nat.lt_of_lt_of_le inside allocated.size_le) top (by rwa [allocated.new])
  have own : ∀ m, ((doc.adopt held parent n).2.node m).own =
      ((doc.alloc held n).2.node m).own := formed'.own_append parent _
  have kept : ∀ m, m ≠ (doc.alloc held n).1 →
      ((doc.adopt held parent n).2.node m).own = (doc.node m).own := fun m other =>
    (own m).trans (Node.content_inj (allocated.content m other)).1
  refine ⟨?_, fun m old _ => kept m old, fun m old => Node.shape_of_own (kept m old),
    fun m isNew => ?_, fun m old closed => ?_, fun m p old parent' => ?_,
    fun others guarded m member => ?_⟩
  · exact Nat.le_trans allocated.size_le (Nat.le_of_eq (formed'.size_append parent _).symm)
  · rw [(Node.own_inj (own m)).2.2.2.2.2, isNew, allocated.new]
    exact quiet
  · exact (children m closed).trans (allocated.children old)
  · have before := (parents m old).symm.trans parent'
    exact (allocated.parent_before old before).symm
  · have apart : ∀ m, others m → m ≠ (doc.alloc held n).1 := by
      rintro m member rfl
      obtain isHeld | ⟨p, -, -, parent'⟩ := guarded.guard _ member
      · obtain last | ⟨-, -, -, free⟩ := allocated.slot
        · exact Nat.ne_of_lt (guarded.inside _ member) last
        · cases isHeld.symm.trans free
      · cases allocated.top.symm.trans parent'
    refine ⟨apart m member, fun p keptParent _ parent' => ?_⟩
    refine (parents m (apart m member)).trans ((allocated.parent m (apart m member)).trans ?_)
    rw [parent', if_neg fun same => apart p keptParent (Option.some.inj same)]

/-- Slots were taken, whichever they were. -/
def Renewed (held : NodeId → Bool) (opened : NodeId → Prop) (doc doc' : Document ℓ) : Prop :=
  ∃ fresh, Renews held opened fresh doc doc'

theorem Renewed.trans {doc'' : Document ℓ} (first : Renewed held opened doc doc')
    (second : Renewed held opened doc' doc'') : Renewed held opened doc doc'' := by
  obtain ⟨_, first⟩ := first
  obtain ⟨_, second⟩ := second
  exact ⟨_, first.trans second fun _ isOpen => .inl isOpen⟩

/-- A node that is held and is no text keeps what is its own when its children come and go. -/
theorem Renewed.own_of_held {id : NodeId} (renewed : Renewed held (· = id) doc doc')
    (inside : id < doc.size) (isHeld : held id = true)
    (inner : (doc.node id).isCharacterData = false) : (doc'.node id).own = (doc.node id).own := by
  obtain ⟨fresh, renews⟩ := renewed
  have guarded : Guarded held (· = id) doc (· = id) := by
    constructor
    · rintro n rfl
      exact inside
    · rintro n rfl
      exact .inl isHeld
  refine renews.own id (renews.spared _ guarded id rfl).1 fun text => ?_
  simp [Node.isCharacterData, text] at inner

mutual

theorem renewed_graft : ∀ (m : Markup) (doc : Document ℓ) (parent : NodeId), doc.WellFormed →
    parent < doc.size → Renewed held (· = parent) doc (graft held parent m doc)
  | .element tag attributes children, doc, parent, formed, inside => by
    have new : (Move.alloc (elementNode tag attributes : Node ℓ)).Fits doc := ⟨rfl, rfl, rfl⟩
    obtain ⟨formed', -, inside'⟩ := formed.adopt held inside new
    have first : Renews held _ _ doc _ := renews_adopt formed inside new nofun rfl
    obtain ⟨_, second⟩ := renewed_graftAll children _ _ formed' inside'
    exact ⟨_, first.trans second fun n isOpen => .inr isOpen⟩
  | .text _, _, _, formed, inside => ⟨_, renews_adopt formed inside ⟨rfl, rfl, rfl⟩ nofun rfl⟩
  | .comment _, _, _, formed, inside => ⟨_, renews_adopt formed inside ⟨rfl, rfl, rfl⟩ nofun rfl⟩

theorem renewed_graftAll : ∀ (ms : List Markup) (doc : Document ℓ) (parent : NodeId),
    doc.WellFormed → parent < doc.size →
      Renewed held (· = parent) doc (graftAll held parent ms doc)
  | [], doc, _, _, _ => ⟨_, Renews.refl doc⟩
  | m :: rest, doc, parent, formed, inside => by
    have first := renewed_graft m doc parent formed inside
    have fit : FitAll held doc _ := fitAll_graft m doc parent formed inside
    obtain ⟨formed', grown⟩ := formed.moveAll fit
    rw [moveAll_graft] at formed' grown
    exact first.trans
      (renewed_graftAll rest _ parent formed' (Nat.lt_of_lt_of_le inside grown))

end

variable {id : NodeId}

theorem renewed_setInnerHtml (formed : doc.WellFormed) (inside : id < doc.size) (markup : String) :
    Renewed held (· = id) doc (doc.setInnerHtml held id markup) := by
  unfold setInnerHtml
  split
  · exact ⟨_, Renews.refl doc⟩
  · have inside' : id < (doc.clearChildren id).size := (formed.size_clearChildren id).symm ▸ inside
    refine .trans ⟨_, renews_clearChildren formed id⟩ (.trans
      (renewed_graftAll _ _ _ (formed.clearChildren id) inside') ⟨_, renews_flag _ id fun _ => ?_⟩)
    exact ⟨rfl, rfl, rfl⟩

theorem renewed_replaceByText (formed : doc.WellFormed) (inside : id < doc.size) (text : String) :
    Renewed held (· = id) doc (doc.replaceByText held id text) := by
  have inside' : id < (doc.clearChildren id).size := (formed.size_clearChildren id).symm ▸ inside
  have flagged : ∀ doc : Document ℓ, Renewed held (· = id) doc (doc.update id flagText) :=
    fun doc => ⟨_, renews_flag doc id fun _ => ⟨rfl, rfl, rfl⟩⟩
  unfold replaceByText
  refine .trans ⟨_, renews_clearChildren formed id⟩ ?_
  dsimp only
  split
  · exact flagged _
  · have new :
        (Move.alloc ({ kind := .text, data := text } : Node ℓ)).Fits (doc.clearChildren id) :=
      ⟨rfl, rfl, rfl⟩
    exact .trans ⟨_, renews_adopt (formed.clearChildren id) inside' new nofun rfl⟩ (flagged _)

theorem onlyText?_eq_some_iff {child : NodeId} : doc.onlyText? id = some child ↔
    (doc.node id).children = [child] ∧ (doc.node child).kind = .text := by
  unfold onlyText?
  constructor
  · intro only
    split at only
    · rename_i found children
      split at only
      · obtain rfl := Option.some.inj only
        exact ⟨children, ‹_›⟩
      · cases only
    · cases only
  · rintro ⟨children, isText⟩
    rw [children]
    exact if_pos isText

theorem parent_of_onlyText? (formed : doc.WellFormed) {child : NodeId}
    (only : doc.onlyText? id = some child) :
    (doc.node child).parent = some id ∧ (doc.node child).kind = .text := by
  obtain ⟨children, isText⟩ := onlyText?_eq_some_iff.mp only
  exact ⟨(formed.links id child).mp (children ▸ List.mem_singleton_self child), isText⟩

/-- The text below a node is rewritten. -/
theorem renews_setData (formed : doc.WellFormed) {child : NodeId}
    (only : doc.onlyText? id = some child) (text : String) :
    Renews held (· = id) (fun _ => False) doc (doc.setData child text) := by
  obtain ⟨parent, isText⟩ := parent_of_onlyText? formed only
  unfold setData
  split
  · exact Renews.refl doc
  · let rewrite : Node ℓ → Node ℓ := fun n =>
      { n with data := text, mutations := { n.mutations with text := true } }
    have parents : ∀ n, ((doc.update child rewrite).node n).parent = (doc.node n).parent :=
      update_keeps Node.parent fun _ => rfl
    refine ⟨Nat.le_of_eq (size_update doc child rewrite).symm, fun n _ stays => ?_,
      fun n _ => update_keeps (f := rewrite) Node.shape (fun _ => rfl) n, fun _ never => never.elim,
      fun n _ _ => update_keeps (f := rewrite) Node.children (fun _ => rfl) n,
      fun n p _ parent' => ⟨fun never => never, (parents n).symm.trans parent'⟩,
      fun _ _ n _ => ⟨fun never => never, fun p _ _ parent' => (parents n).trans parent'⟩⟩
    have other : n ≠ child := by
      rintro rfl
      exact stays isText id parent rfl
    rw [node_update_of_ne other]

theorem renewed_setTextContent (formed : doc.WellFormed) (inside : id < doc.size)
    (inner : (doc.node id).isCharacterData = false) (text : String) :
    Renewed held (· = id) doc (doc.setTextContent held id text) := by
  unfold setTextContent
  rw [if_neg (by simp [inner])]
  split
  · split
    · exact ⟨_, Renews.refl doc⟩
    · exact renewed_replaceByText formed inside text
  · cases only : doc.onlyText? id with
    | none => exact renewed_replaceByText formed inside text
    | some child =>
      dsimp only
      split
      · exact ⟨_, Renews.refl doc⟩
      · exact .trans ⟨_, renews_setData formed only text⟩ ⟨_, renews_flag _ id fun _ =>
          ⟨rfl, rfl, rfl⟩⟩

theorem WellFormed.setInnerHtml (held : NodeId → Bool) (formed : doc.WellFormed)
    (inside : id < doc.size) (markup : String) : (doc.setInnerHtml held id markup).WellFormed :=
  moveAll_html held doc id markup ▸ (formed.moveAll (fitAll_html formed inside markup)).1

theorem WellFormed.setTextContent (held : NodeId → Bool) (formed : doc.WellFormed)
    (inside : id < doc.size) (text : String) : (doc.setTextContent held id text).WellFormed :=
  moveAll_text held doc id text ▸ (formed.moveAll (fitAll_text formed inside text)).1

end Document
end ReactiveView
