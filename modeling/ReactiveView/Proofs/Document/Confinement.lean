import ReactiveView.Proofs.Document.Renewal

/-! Changes that are confined to some nodes. Only nodes that are opened lose or get children, and
only nodes that are touched are written to. Whatever hangs below the root or below a node that is
held, without an opened node above it on that way, keeps its slot and is left alone unless it is
touched itself. -/
namespace ReactiveView.Document

variable {ℓ : Type} {held holds : NodeId → Bool} {opened touched : NodeId → Prop}
variable {doc doc' doc'' : Document ℓ} {id n : NodeId}

/-- The root, what is held, and their children as far as no opened node is passed on the way. -/
inductive Secure (held : NodeId → Bool) (opened : NodeId → Prop) (doc : Document ℓ) : NodeId → Prop
  | root : Secure held opened doc rootId
  | held {n : NodeId} : held n = true → Secure held opened doc n
  | child {p c : NodeId} : Secure held opened doc p → ¬ opened p → c ∈ (doc.node p).children →
      Secure held opened doc c

/-- Secure nodes keep their kinds; they keep their children unless they are opened, and all but
their parents unless they are touched. No secure node gets a parent. -/
structure Confined (held : NodeId → Bool) (opened touched : NodeId → Prop) (doc doc' : Document ℓ) :
    Prop where
  grown : doc.size ≤ doc'.size
  kind : ∀ n, Secure held opened doc n → (doc'.node n).kind = (doc.node n).kind
  children : ∀ n, Secure held opened doc n → ¬ opened n →
    (doc'.node n).children = (doc.node n).children
  content : ∀ n, Secure held opened doc n → ¬ touched n →
    (doc'.node n).content = (doc.node n).content
  parent_before : ∀ n p, Secure held opened doc n → (doc'.node n).parent = some p →
    (doc.node n).parent = some p

namespace Confined

theorem refl (doc : Document ℓ) : Confined held opened touched doc doc :=
  ⟨Nat.le_refl _, fun _ _ => rfl, fun _ _ _ => rfl, fun _ _ _ => rfl, fun _ _ _ parent => parent⟩

theorem secure (confined : Confined held opened touched doc doc') :
    Secure held opened doc' n ↔ Secure held opened doc n := by
  constructor
  · intro now
    induction now with
    | root => exact .root
    | held isHeld => exact .held isHeld
    | child _ closed member ih =>
      rw [confined.children _ ih closed] at member
      exact .child ih closed member
  · intro before
    induction before with
    | root => exact .root
    | held isHeld => exact .held isHeld
    | child was closed member ih =>
      refine .child ih closed ?_
      rwa [confined.children _ was closed]

theorem trans (first : Confined held opened touched doc doc')
    (second : Confined held opened touched doc' doc'') :
    Confined held opened touched doc doc'' := by
  refine ⟨Nat.le_trans first.grown second.grown, ?_, ?_, ?_, ?_⟩
  · intro n was
    exact (second.kind n (first.secure.mpr was)).trans (first.kind n was)
  · intro n was closed
    exact (second.children n (first.secure.mpr was) closed).trans (first.children n was closed)
  · intro n was spared
    exact (second.content n (first.secure.mpr was) spared).trans (first.content n was spared)
  · intro n p was parent
    exact first.parent_before n p was (second.parent_before n p (first.secure.mpr was) parent)

/-- What hangs below the root or below a node that is held is left alone, or it is touched, or it
lies below an opened node. -/
theorem sheltered (confined : Confined held opened touched doc doc') (formed : doc.WellFormed)
    (sheltered : Sheltered held doc n) : (doc'.node n).content = (doc.node n).content ∨ touched n ∨
      ∃ t, opened t ∧ Above doc t n := by
  have reached : Secure held opened doc n ∨ ∃ t, opened t ∧ Above doc t n := by
    induction sheltered with
    | root => exact .inl .root
    | held isHeld => exact .inl (.held isHeld)
    | @child p c _ member ih =>
      have parent := (formed.links p c).mp member
      by_cases isOpen : opened p
      · exact .inr ⟨p, isOpen, .parent parent⟩
      · obtain secure | ⟨t, isOpen, above⟩ := ih
        · exact .inl (.child secure isOpen member)
        · exact .inr ⟨t, isOpen, .further parent above⟩
  obtain secure | below := reached
  · by_cases isTouched : touched n
    · exact .inr (.inl isTouched)
    · exact .inl (confined.content n secure isTouched)
  · exact .inr (.inr below)

end Confined

/-- A write to a node that may be touched, or that is not secure anyway. -/
theorem confined_update {f : Node ℓ → Node ℓ} (kept : ∀ n, (f n).kind = n.kind ∧
    (f n).children = n.children ∧ (f n).parent = n.parent)
    (may : touched id ∨ ¬ Secure held opened doc id) :
    Confined held opened touched doc (doc.update id f) := by
  refine ⟨Nat.le_of_eq (size_update doc id f).symm, ?_, ?_, ?_, ?_⟩
  · intro n _
    exact update_keeps Node.kind (fun n => (kept n).1) n
  · intro n _ _
    exact update_keeps Node.children (fun n => (kept n).2.1) n
  · intro n secure spared
    have other : n ≠ id := by
      rintro rfl
      exact may.elim spared fun insecure => insecure secure
    rw [node_update_of_ne other]
  · intro n p _ parent
    rwa [update_keeps Node.parent fun n => (kept n).2.2] at parent

theorem confined_clearChildren (formed : doc.WellFormed) (isOpen : opened id)
    (isTouched : touched id) :
    Confined held opened touched doc (doc.clearChildren id) := by
  rw [clearChildren_eq]
  split
  · exact .refl doc
  · have dropped := sheds formed id doc.free
    have shed : Confined held opened touched doc (doc.shed id) := by
      refine ⟨Nat.le_of_eq dropped.size.symm, fun n _ => dropped.kind n, ?_, ?_, ?_⟩
      · intro n _ closed
        rw [dropped.children, if_neg]
        rintro rfl
        exact closed isOpen
      · intro n _ spared
        refine dropped.content n ?_
        rintro rfl
        exact spared isTouched
      · intro n p _ parent
        exact (dropped.parent_before parent).1
    exact shed.trans (confined_update (fun _ => ⟨rfl, rfl, rfl⟩) (.inl isTouched))

/-- No slot of a secure node is taken. -/
theorem Allocates.insecure {new : Node ℓ} (allocated : Allocates holds doc doc' new id)
    (formed : doc.WellFormed) (inside : ∀ n, held n = true → n < doc.size)
    (more : ∀ n, held n = true → holds n = true) : ¬ Secure held opened doc id := by
  intro secure
  cases secure with
  | root => exact allocated.ne_root formed rfl
  | held isHeld =>
    obtain last | ⟨-, -, -, free⟩ := allocated.slot
    · exact Nat.ne_of_lt (inside id isHeld) last
    · cases (more id isHeld).symm.trans free
  | child _ _ member => cases allocated.top.symm.trans ((formed.links _ _).mp member)

theorem Allocates.confined {new : Node ℓ} (allocated : Allocates holds doc doc' new id)
    (formed : doc.WellFormed) (inside : ∀ n, held n = true → n < doc.size)
    (more : ∀ n, held n = true → holds n = true) : Confined held opened touched doc doc' := by
  have apart : ∀ n, Secure held opened doc n → n ≠ id := by
    rintro n secure rfl
    exact allocated.insecure formed inside more secure
  refine ⟨allocated.size_le, ?_, ?_, ?_, ?_⟩
  · intro n secure
    exact allocated.kind (apart n secure)
  · intro n secure _
    exact allocated.children (apart n secure)
  · intro n secure _
    exact allocated.content n (apart n secure)
  · intro n p secure parent
    exact (allocated.parent_before (apart n secure) parent).1

/-- A node without a parent, which is no fragment, comes to the end of a child list, and only this
node and the one with the list are written to. -/
theorem content_append {parent child : NodeId} (top : (doc.node child).parent = none)
    (inner : (doc.node child).kind ≠ .fragment) (other : n ≠ parent) :
    ((doc.append parent child).node n).content = (doc.node n).content := by
  unfold append
  split
  · rfl
  · let move : Node ℓ → Node ℓ := fun n => { n with parent := some parent, released := false }
    simp only [place, detach, top]
    rw [node_update_of_ne other]
    exact update_keeps (f := move) Node.content (fun _ => rfl) n

theorem confined_append (formed : doc.WellFormed) {parent child : NodeId}
    (inside : parent < doc.size) (top : (doc.node child).parent = none)
    (inner : (doc.node child).kind ≠ .fragment) (new : ¬ Secure held opened doc child)
    (may : opened parent ∧ touched parent ∨ ¬ Secure held opened doc parent) :
    Confined held opened touched doc (doc.append parent child) := by
  obtain ⟨parents, children⟩ := append_single formed inside top inner
  refine ⟨Nat.le_of_eq (formed.size_append parent child).symm, ?_, ?_, ?_, ?_⟩
  · intro n _
    exact (Node.own_inj (formed.own_append parent child n)).1
  · intro n secure closed
    refine children n ?_
    rintro rfl
    exact may.elim (fun both => closed both.1) fun insecure => insecure secure
  · intro n secure spared
    refine content_append top inner ?_
    rintro rfl
    exact may.elim (fun both => spared both.2) fun insecure => insecure secure
  · intro n p secure parent'
    rw [parents n] at parent'
    · exact parent'
    · rintro rfl
      exact new secure

/-- A new node is put below a node that is opened, or that is not secure anyway. -/
theorem confined_adopt (more : ∀ n, held n = true → holds n = true)
    (formed : doc.WellFormed) (bounded : ∀ n, held n = true → n < doc.size)
    {parent : NodeId} (inside : parent < doc.size) {new : Node ℓ} (fits : (Move.alloc new).Fits doc)
    (inner : new.kind ≠ .fragment)
    (may : opened parent ∧ touched parent ∨ ¬ Secure held opened doc parent) :
    Confined held opened touched doc (doc.adopt holds parent new).2 := by
  have allocated := allocates_alloc formed holds new
  have first : Confined held opened touched doc (doc.alloc holds new).2 :=
    allocated.confined formed bounded more
  have top : ((doc.alloc holds new).2.node (doc.alloc holds new).1).parent = none := by
    rw [allocated.new]
    exact fits.1
  have inner' : ((doc.alloc holds new).2.node (doc.alloc holds new).1).kind ≠ .fragment := by
    rwa [allocated.new]
  have insecure : ¬ Secure held opened doc (doc.alloc holds new).1 :=
    allocated.insecure formed bounded more
  refine first.trans (confined_append (allocated.wellFormed formed fits.1 fits.2.1 fits.2.2)
    (Nat.lt_of_lt_of_le inside allocated.size_le) top inner' ?_ ?_)
  · exact mt first.secure.mp insecure
  · exact may.imp_right (mt first.secure.mp)

mutual

theorem confined_graft (more : ∀ n, held n = true → holds n = true) :
    ∀ (m : Markup) (doc : Document ℓ) (parent : NodeId), doc.WellFormed →
      (∀ n, held n = true → n < doc.size) → parent < doc.size →
      (opened parent ∧ touched parent ∨ ¬ Secure held opened doc parent) →
        Confined held opened touched doc (graft holds parent m doc)
  | .element tag attributes children, doc, parent, formed, bounded, inside, may => by
    have fits : (Move.alloc (elementNode tag attributes : Node ℓ)).Fits doc := ⟨rfl, rfl, rfl⟩
    have first : Confined held opened touched doc _ :=
      confined_adopt more formed bounded inside fits nofun may
    have insecure : ¬ Secure held opened doc _ :=
      (allocates_alloc formed holds (elementNode tag attributes)).insecure formed bounded more
    obtain ⟨formed', grown, inside'⟩ := formed.adopt holds inside fits
    refine first.trans (confined_graftAll more children _ _ formed' ?_ inside' ?_)
    · intro n isHeld
      exact Nat.lt_of_lt_of_le (bounded n isHeld) grown
    · exact .inr (mt first.secure.mp insecure)
  | .text _, _, _, formed, bounded, inside, may =>
    confined_adopt more formed bounded inside ⟨rfl, rfl, rfl⟩ nofun may
  | .comment _, _, _, formed, bounded, inside, may =>
    confined_adopt more formed bounded inside ⟨rfl, rfl, rfl⟩ nofun may

theorem confined_graftAll (more : ∀ n, held n = true → holds n = true) :
    ∀ (ms : List Markup) (doc : Document ℓ) (parent : NodeId), doc.WellFormed →
      (∀ n, held n = true → n < doc.size) → parent < doc.size →
      (opened parent ∧ touched parent ∨ ¬ Secure held opened doc parent) →
        Confined held opened touched doc (graftAll holds parent ms doc)
  | [], doc, _, _, _, _, _ => .refl doc
  | m :: rest, doc, parent, formed, bounded, inside, may => by
    have first := confined_graft more m doc parent formed bounded inside may
    have fit : FitAll holds doc _ := fitAll_graft m doc parent formed inside
    obtain ⟨formed', grown⟩ := formed.moveAll fit
    rw [moveAll_graft] at formed' grown
    refine first.trans (confined_graftAll more rest _ parent formed' ?_
      (Nat.lt_of_lt_of_le inside grown) ?_)
    · intro n isHeld
      exact Nat.lt_of_lt_of_le (bounded n isHeld) grown
    · rwa [first.secure]

end

section Writing

variable (more : ∀ n, held n = true → holds n = true) (formed : doc.WellFormed)
variable (bounded : ∀ n, held n = true → n < doc.size) (inside : id < doc.size)
variable (isOpen : opened id) (isTouched : touched id)
include more formed bounded inside isOpen isTouched

theorem confined_setInnerHtml (markup : String) :
    Confined held opened touched doc (doc.setInnerHtml holds id markup) := by
  unfold setInnerHtml
  split
  · exact .refl doc
  · have size := formed.size_clearChildren id
    have cleared : Confined held opened touched doc (doc.clearChildren id) :=
      confined_clearChildren formed isOpen isTouched
    have filled : Confined held opened touched (doc.clearChildren id)
        (graftAll holds id (Markup.parse markup) (doc.clearChildren id)) := by
      refine confined_graftAll more _ _ id (formed.clearChildren id) ?_ (size ▸ inside)
        (.inl ⟨isOpen, isTouched⟩)
      intro n isHeld
      exact size ▸ bounded n isHeld
    exact cleared.trans (filled.trans (confined_update (fun _ => ⟨rfl, rfl, rfl⟩) (.inl isTouched)))

theorem confined_replaceByText (text : String) :
    Confined held opened touched doc (doc.replaceByText holds id text) := by
  have size := formed.size_clearChildren id
  have cleared : Confined held opened touched doc (doc.clearChildren id) :=
    confined_clearChildren formed isOpen isTouched
  have flagged : ∀ doc : Document ℓ, Confined held opened touched doc (doc.update id flagText) :=
    fun _ => confined_update (fun _ => ⟨rfl, rfl, rfl⟩) (.inl isTouched)
  unfold replaceByText
  refine cleared.trans ?_
  dsimp only
  split
  · exact flagged _
  · have adopted : Confined held opened touched (doc.clearChildren id)
        ((doc.clearChildren id).adopt holds id { kind := .text, data := text }).2 := by
      refine confined_adopt more (formed.clearChildren id) ?_ (size ▸ inside) ⟨rfl, rfl, rfl⟩ nofun
        (.inl ⟨isOpen, isTouched⟩)
      intro n isHeld
      exact size ▸ bounded n isHeld
    exact adopted.trans (flagged _)

omit more formed bounded inside isOpen in
theorem confined_setData (data : String) :
    Confined held opened touched doc (doc.setData id data) := by
  unfold setData
  split
  · exact .refl doc
  · exact confined_update (fun _ => ⟨rfl, rfl, rfl⟩) (.inl isTouched)

/-- Writing text touches a node, and its only child if that is a text. -/
theorem confined_setTextContent (text : String)
    (children : ∀ c, (doc.node c).parent = some id → touched c ∨ ¬ Secure held opened doc c) :
    Confined held opened touched doc (doc.setTextContent holds id text) := by
  have replaced : Confined held opened touched doc (doc.replaceByText holds id text) :=
    confined_replaceByText more formed bounded inside isOpen isTouched text
  unfold setTextContent
  split
  · exact confined_setData isTouched text
  · split
    · split
      · exact .refl doc
      · exact replaced
    · cases only : doc.onlyText? id with
      | none => exact replaced
      | some child =>
        dsimp only
        split
        · exact .refl doc
        · have rewritten : Confined held opened touched doc (doc.setData child text) := by
            unfold setData
            split
            · exact .refl doc
            · exact confined_update (fun _ => ⟨rfl, rfl, rfl⟩)
                (children child (parent_of_onlyText? formed only).1)
          exact rewritten.trans (confined_update (fun _ => ⟨rfl, rfl, rfl⟩) (.inl isTouched))

omit more formed bounded inside isOpen in
theorem confined_setValue (value : String) :
    Confined held opened touched doc (doc.setValue id value) := by
  unfold setValue
  split
  · exact .refl doc
  · exact confined_update (fun _ => ⟨rfl, rfl, rfl⟩) (.inl isTouched)

end Writing
end ReactiveView.Document
