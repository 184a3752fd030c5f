import ReactiveView.Proofs.Document.Occupancy

/-! Rewriting a document again and again. Texts and markup that are set on nodes of the tree fill
the slots of what they replace before the document grows, so that it never has more slots than its
tree had nodes at its largest. -/
namespace ReactiveView.Document

open State

variable {ℓ : Type} {doc doc' doc'' : Document ℓ} {held : NodeId → Bool} {id : NodeId}

theorem population_congr (formed : doc.WellFormed) (formed' : doc'.WellFormed)
    (same : ∀ n, doc'.Attached n ↔ doc.Attached n) : doc'.population = doc.population :=
  ((List.perm_ext_iff_of_nodup (nodup_listing formed' formed'.inhabited)
    (nodup_listing formed formed.inhabited)).mpr fun n =>
      (mem_listing formed' formed'.inhabited).trans
        ((same n).trans (mem_listing formed formed.inhabited).symm)).length_eq

theorem attached_congr (same : ∀ n, (doc'.node n).parent = (doc.node n).parent) (n : NodeId) :
    doc'.Attached n ↔ doc.Attached n :=
  or_congr_right ⟨fun above => above.congr fun m _ => (same m).symm,
    fun above => above.congr fun m _ => same m⟩

theorem Accounted.sameForest (accounted : doc.Accounted) (same : SameForest doc doc') :
    doc'.Accounted := by
  intro n inside top
  rw [same.size] at inside
  rw [same.parent] at top
  rw [same.released]
  exact accounted n inside top

/-- The document grew only to the size of its tree, and lost no node. -/
structure Refills (doc doc' : Document ℓ) : Prop where
  formed : doc'.WellFormed
  accounted : doc'.Accounted
  size : doc'.size = max doc.size doc'.population

namespace Refills

theorem refl (formed : doc.WellFormed) (accounted : doc.Accounted) : Refills doc doc :=
  ⟨formed, accounted, (Nat.max_eq_left (population_le_size formed)).symm⟩

theorem sameForest (refills : Refills doc doc') (same : SameForest doc' doc'') :
    Refills doc doc'' where
  formed := refills.formed.sameForest same
  accounted := refills.accounted.sameForest same
  size := by
    rw [population_congr refills.formed (refills.formed.sameForest same)
      (attached_congr same.parent), same.size, refills.size]

end Refills

theorem Fills.refills (fills : Fills held doc doc') (inside : ∀ n, held n = true → n < doc.size)
    (attached : ∀ n, held n = true → doc'.Attached n) : Refills doc doc' where
  formed := fills.formed
  accounted := fills.accounted
  size := by
    obtain same | all := fills.full fun n isHeld => fills.outside n (inside n isHeld) isHeld
      (attached n isHeld)
    · rw [Nat.max_eq_left (same ▸ population_le_size fills.formed), same]
    · rw [population_of_attached fills.formed all, Nat.max_eq_right fills.grown]

theorem accounted_shed (formed : doc.WellFormed) (accounted : doc.Accounted) (id : NodeId) :
    (doc.shed id).Accounted := by
  have dropped := sheds formed id doc.free
  intro m inside top
  have inside' : m < doc.size := inside.trans_eq dropped.size
  rw [dropped.parent] at top
  split at top
  · rename_i child
    exact .inr (released_shed inside' (.inr ((formed.links id m).mpr child)))
  · exact (accounted m inside' top).imp_right fun waits => released_shed inside' (.inl waits)

/-- A node of the tree stays in it when its children are dropped. -/
theorem attached_shed (formed : doc.WellFormed) (attached : doc.Attached id) :
    (doc.shed id).Attached id := by
  refine attached.imp_right fun above => above.congr fun m line => ?_
  refine ((sheds formed id doc.free).parent m).trans (if_neg fun child => ?_)
  rcases line with rfl | lower
  · exact formed.not_above_self m (.parent child)
  · exact formed.not_above_self id (.trans (.parent child) lower)

theorem accounted_clearChildren (formed : doc.WellFormed) (accounted : doc.Accounted)
    (attached : doc.Attached id) :
    (doc.clearChildren id).Accounted ∧ (doc.clearChildren id).Attached id := by
  rw [clearChildren_eq]
  split
  · exact ⟨accounted, attached⟩
  · have same : SameForest (doc.shed id) ((doc.shed id).update id flagChildren) :=
      sameForest_update (fun _ => rfl) (fun _ => rfl) (fun _ => rfl) fun _ => rfl
    exact ⟨(accounted_shed formed accounted id).sameForest same,
      (attached_congr same.parent id).mpr (attached_shed formed attached)⟩

/-- Whatever replaces the children of a node of the tree takes the slots that were
given up first. -/
theorem refills_graftAll (formed : doc.WellFormed) (accounted : doc.Accounted)
    (inside : ∀ n, held n = true → n < doc.size) (upper : doc.Attached id) (ms : List Markup)
    (attached : ∀ n, held n = true → (graftAll held id ms (doc.clearChildren id)).Attached n) :
    Refills doc (graftAll held id ms (doc.clearChildren id)) := by
  obtain ⟨accounted', upper'⟩ := accounted_clearChildren formed accounted upper
  have size := formed.size_clearChildren id
  have fills : Fills held (doc.clearChildren id) (graftAll held id ms (doc.clearChildren id)) :=
    fills_graftAll ms _ id (formed.clearChildren id) accounted' upper'
  obtain ⟨formed', accounted'', size'⟩ := fills.refills (size.symm ▸ inside) attached
  exact ⟨formed', accounted'', size ▸ size'⟩

theorem refills_setInnerHtml (formed : doc.WellFormed) (accounted : doc.Accounted)
    (inside : ∀ n, held n = true → n < doc.size) (upper : doc.Attached id) (markup : String)
    (attached : ∀ n, held n = true → (doc.setInnerHtml held id markup).Attached n) :
    Refills doc (doc.setInnerHtml held id markup) := by
  unfold setInnerHtml at attached ⊢
  split
  · exact .refl formed accounted
  · rename_i other
    rw [if_neg other] at attached
    have same : SameForest (graftAll held id (Markup.parse markup) (doc.clearChildren id))
        ((graftAll held id (Markup.parse markup) (doc.clearChildren id)).update id fun n =>
          { n with mutations := { n.mutations with innerHtml := true } }) :=
      sameForest_update (fun _ => rfl) (fun _ => rfl) (fun _ => rfl) fun _ => rfl
    exact (refills_graftAll formed accounted inside upper _ fun n isHeld =>
      (attached_congr same.parent n).mp (attached n isHeld)).sameForest same

theorem replaceByText_eq (held : NodeId → Bool) (doc : Document ℓ) (id : NodeId) (text : String) :
    doc.replaceByText held id text =
      (graftAll held id (if text = "" then [] else [.text text]) (doc.clearChildren id)).update id
        flagText := by
  unfold replaceByText
  split <;> rfl

theorem sameForest_setData (doc : Document ℓ) (id : NodeId) (data : String) :
    SameForest doc (doc.setData id data) := by
  unfold setData
  split
  · exact .refl doc
  · exact sameForest_update (fun _ => rfl) (fun _ => rfl) (fun _ => rfl) fun _ => rfl

theorem refills_setTextContent (formed : doc.WellFormed) (accounted : doc.Accounted)
    (inside : ∀ n, held n = true → n < doc.size) (upper : doc.Attached id) (text : String)
    (attached : ∀ n, held n = true → (doc.setTextContent held id text).Attached n) :
    Refills doc (doc.setTextContent held id text) := by
  have flag : ∀ doc : Document ℓ, SameForest doc (doc.update id flagText) := fun doc =>
    sameForest_update (fun _ => rfl) (fun _ => rfl) (fun _ => rfl) fun _ => rfl
  have replaced : (∀ n, held n = true → (doc.replaceByText held id text).Attached n) →
      Refills doc (doc.replaceByText held id text) := fun attached => by
    rw [replaceByText_eq] at attached ⊢
    exact (refills_graftAll formed accounted inside upper _ fun n isHeld =>
      (attached_congr (flag _).parent n).mp (attached n isHeld)).sameForest (flag _)
  have same := Refills.refl formed accounted
  unfold setTextContent at attached ⊢
  split
  · exact same.sameForest (sameForest_setData doc id text)
  · rename_i inner
    rw [if_neg inner] at attached
    split
    · rename_i empty
      rw [if_pos empty] at attached
      split
      · exact same
      · rename_i some
        exact replaced (by rwa [if_neg some] at attached)
    · rename_i some
      rw [if_neg some] at attached
      cases only : doc.onlyText? id with
      | some child =>
        dsimp only
        split
        · exact same
        · exact (same.sameForest (sameForest_setData doc child text)).sameForest (flag _)
      | none =>
        rw [only] at attached
        exact replaced attached

/-- Texts and markup are set, and references are taken and let go. -/
def Operation.Rewrites : Operation ℓ → Prop
  | .setText _ _ | .setHtml _ _ | .hold _ | .drop _ => True
  | _ => False

/-- One rewrite with references to nodes of the tree alone, before and after. -/
theorem refills_run {s : State ℓ} (good : s.Good) (accounted : s.doc.Accounted) {op : Operation ℓ}
    (rewrites : op.Rewrites) (allowed : s.Allows op) (before : ∀ n ∈ s.refs, s.doc.Attached n)
    (after : ∀ n ∈ (s.run op).refs, (s.run op).doc.Attached n) : Refills s.doc (s.run op).doc := by
  cases op with
  | setText id text =>
    exact refills_setTextContent good.formed accounted good.bounded (before id allowed) text
      fun n isHeld => after n (held_iff_mem.mp isHeld)
  | setHtml id markup =>
    exact refills_setInnerHtml good.formed accounted good.bounded (before id allowed) markup
      fun n isHeld => after n (held_iff_mem.mp isHeld)
  | hold _ => exact .refl good.formed accounted
  | drop _ => exact .refl good.formed accounted
  | _ => exact rewrites.elim

theorem accounted_empty : (empty : Document ℓ).Accounted := by
  intro n inside _
  exact .inl (Nat.lt_one_iff.mp inside)

/-- A parsed document has no more slots than nodes in its tree. -/
theorem refills_ofMarkup (markup : String) : Refills empty (ofMarkup markup : Document ℓ) := by
  have fills : Fills (fun _ => false) (empty : Document ℓ) _ :=
    fills_graftAll (Markup.parse markup) _ rootId wellFormed_empty accounted_empty (.inl rfl)
  exact (fills.refills nofun nofun).sameForest (sameForest_clearMutations _)

theorem population_pos (doc : Document ℓ) : 0 < doc.population := by
  unfold population listing
  cases doc.size with
  | zero => exact Nat.one_pos
  | succ levels =>
    rw [listingTo_succ]
    exact Nat.succ_pos _

theorem scanl_eq (ops : List (Operation ℓ)) (s : State ℓ) :
    ops.scanl run s = s :: (ops.scanl run s).tail := by
  cases ops <;> simp

/-- Over a run, the size follows the largest tree. -/
theorem size_foldl_run {s : State ℓ} (good : s.Good) (accounted : s.doc.Accounted)
    {ops : List (Operation ℓ)} (rewrites : ∀ op ∈ ops, op.Rewrites) (allowed : s.AllowsAll ops)
    (attached : ∀ now ∈ ops.scanl run s, ∀ n ∈ now.refs, now.doc.Attached n) :
    (ops.foldl run s).doc.size =
      ((ops.scanl run s).tail.map (·.doc.population)).foldl max s.doc.size := by
  induction ops generalizing s with
  | nil => rfl
  | cons op rest ih =>
    obtain ⟨first, later⟩ := List.forall_mem_cons.mp rewrites
    rw [List.scanl_cons] at attached ⊢
    obtain ⟨before, attached⟩ := List.forall_mem_cons.mp attached
    have refills := refills_run good accounted first allowed.1 before
      (attached _ (scanl_eq rest (s.run op) ▸ List.mem_cons_self))
    rw [List.foldl_cons, ih (good.run allowed.1) refills.accounted later allowed.2 attached,
      List.tail_cons, scanl_eq rest (s.run op), List.map_cons, List.foldl_cons, ← refills.size]
    rfl

theorem allowsAll_of_append {s : State ℓ} {done later : List (Operation ℓ)}
    (allowed : s.AllowsAll (done ++ later)) : s.AllowsAll done := by
  induction done generalizing s with
  | nil => trivial
  | cons op rest ih => exact ⟨allowed.1, ih allowed.2⟩

theorem mem_scanl_append {s now : State ℓ} {done : List (Operation ℓ)}
    (later : List (Operation ℓ)) (member : now ∈ done.scanl run s) :
    now ∈ (done ++ later).scanl run s := by
  induction done generalizing s with
  | nil =>
    obtain rfl := List.mem_singleton.mp member
    cases later <;> simp
  | cons op rest ih =>
    rw [List.scanl_cons] at member
    rw [List.cons_append, List.scanl_cons]
    exact (List.mem_cons.mp member).elim (fun same => same ▸ List.mem_cons_self)
      fun member => List.mem_cons_of_mem _ (ih member)

/-- The arena is bounded by its peak. From a parsed document on, whatever texts and markup are set
on nodes of the tree, the size of the document after every call is the largest number of nodes that
its tree had so far, as long as references point to nodes of the tree alone: no call drops a node
that is held while it runs or afterwards. -/
theorem size_eq_peak (markup : String) {ops : List (Operation ℓ)}
    (rewrites : ∀ op ∈ ops, op.Rewrites) (allowed : AllowsAll ⟨ofMarkup markup, []⟩ ops)
    (attached : ∀ s ∈ ops.scanl run ⟨ofMarkup markup, []⟩, ∀ n ∈ s.refs, s.doc.Attached n) :
    ∀ done later, ops = done ++ later →
      ((done.scanl run ⟨ofMarkup markup, []⟩).map (·.doc.population)).max? =
        some (done.foldl run ⟨ofMarkup markup, []⟩).doc.size := by
  rintro done later rfl
  have size := size_foldl_run (good_of_reachable (reachable_ofMarkup markup))
    (refills_ofMarkup markup).accounted
    (fun op member => rewrites op (List.mem_append_left _ member)) (allowsAll_of_append allowed)
    fun s member => attached s (mem_scanl_append later member)
  have start : (ofMarkup markup : Document ℓ).size = (ofMarkup markup : Document ℓ).population :=
    (refills_ofMarkup markup).size.trans (Nat.max_eq_right (population_pos _))
  rw [scanl_eq, List.map_cons, List.max?_cons', ← start, size]

/-- A tree that grows, is emptied, grows further and is left small, also by way of a
node inside it. -/
def rerendered : List (Operation Empty) :=
  [.hold 0, .setHtml 0 "<b>x</b><i>y</i>", .hold 3, .setText 3 "", .drop 3, .setText 0 "",
    .setHtml 0 "<ul><li>1</li><li>2</li></ul>", .setText 0 "end"]

theorem rerendered_size_eq_peak :
    (rerendered.scanl run ⟨ofMarkup "<p>a</p>", []⟩).map (·.doc.population) =
      [3, 3, 5, 5, 4, 4, 1, 6, 2] ∧
    (rerendered.foldl run ⟨ofMarkup "<p>a</p>", []⟩).doc.size = 6 := by
  have populations : (rerendered.scanl run ⟨ofMarkup "<p>a</p>", []⟩).map (·.doc.population) =
      [3, 3, 5, 5, 4, 4, 1, 6, 2] := by decide +kernel
  have attached : ∀ s ∈ rerendered.scanl run ⟨ofMarkup "<p>a</p>", []⟩, ∀ n ∈ s.refs,
      n = rootId ∨ (s.doc.node n).parent = some rootId := by decide +kernel
  have rewrites : ∀ op ∈ rerendered, op.Rewrites := by
    intro op member
    simp only [rerendered, List.mem_cons, List.not_mem_nil, or_false] at member
    rcases member with rfl | rfl | rfl | rfl | rfl | rfl | rfl | rfl <;> trivial
  have peak := size_eq_peak "<p>a</p>" rewrites (by decide +kernel)
    (fun s visited n member => (attached s visited n member).imp_right .parent) rerendered []
    (List.append_nil _).symm
  rw [populations] at peak
  exact ⟨populations, (Option.some.inj peak).symm⟩

end ReactiveView.Document
