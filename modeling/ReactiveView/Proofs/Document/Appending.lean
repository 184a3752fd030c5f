import ReactiveView.Proofs.Document.Reuse
import ReactiveView.Proofs.Document.Draining

/-! What appending does to the tree. A node leaves the child list it was in and comes last in
the new one, the children of a fragment are handed over in their order, and all other child
lists and parents stay. Into its own subtree no node goes. The children of a fragment may be
appended one by one. -/
namespace ReactiveView.Document

open State

variable {ℓ : Type} {doc doc' : Document ℓ} {s : State ℓ} {p c : NodeId}

/-- A node has moved to the end of a child list, which may be the one it was in. -/
structure Moved (p c : NodeId) (doc doc' : Document ℓ) : Prop where
  received : (doc'.node p).children = (doc.node p).children.filter (· != c) ++ [c]
  parent : (doc'.node c).parent = some p
  left : ∀ q, q ≠ p → (doc.node c).parent = some q →
    (doc'.node q).children = (doc.node q).children.filter (· != c)
  others : ∀ n, n ≠ p → (doc.node c).parent ≠ some n →
    (doc'.node n).children = (doc.node n).children
  stays : ∀ n, n ≠ c → (doc'.node n).parent = (doc.node n).parent

/-- A node has given its children to another one, which had children before. -/
structure GaveAway (p c : NodeId) (doc doc' : Document ℓ) : Prop where
  received : (doc'.node p).children = (doc.node p).children ++ (doc.node c).children
  emptied : (doc'.node c).children = []
  parents : ∀ n ∈ (doc.node c).children, (doc'.node n).parent = some p
  others : ∀ n, n ≠ p → n ≠ c → (doc'.node n).children = (doc.node n).children
  stays : ∀ n, n ∉ (doc.node c).children → (doc'.node n).parent = (doc.node n).parent

theorem Relinks.moved (relinks : Relinks doc doc' (some p) c) (formed : doc.WellFormed) :
    Moved p c doc doc' := by
  have elsewhere : ∀ n, n ≠ p →
      (doc'.node n).children = (doc.node n).children.filter (· != c) := fun n other => by
    rw [relinks.children, if_neg fun same => other (Option.some.inj same).symm, List.append_nil]
  refine ⟨?_, ?_, fun q other _ => elsewhere q other, fun n other apart => ?_, fun n other => ?_⟩
  · rw [relinks.children, if_pos rfl]
  · rw [relinks.parent, if_pos rfl]
  · rw [elsewhere n other, formed.filter_children apart]
  · rw [relinks.parent, if_neg other]

theorem gaveAway_append (formed : doc.WellFormed) (inside : p < doc.size)
    (fragment : (doc.node c).kind = .fragment) (apart : p ≠ c) (outside : ¬ Above doc c p) :
    GaveAway p c doc (doc.append p c) := by
  have handsOver := handsOver_append formed inside fragment apart outside
  have rehangs := rehangs_append formed inside fragment apart outside
  refine ⟨handsOver.received, handsOver.emptied, fun n member => ?_,
    fun n other apart => handsOver.others n apart other, fun n spared => ?_⟩
  · rw [rehangs.parent, if_pos ((formed.links c n).mp member)]
  · rw [rehangs.parent, if_neg fun below => spared ((formed.links c n).mpr below)]

section OneByOne

theorem update_comm {a b : NodeId} (apart : a ≠ b) (f g : Node ℓ → Node ℓ) :
    (doc.update a f).update b g = (doc.update b g).update a f := by
  have nodes : (doc.nodes.modify a f).modify b g = (doc.nodes.modify b g).modify a f := by
    refine Array.ext (by simp) fun i _ _ => ?_
    simp only [Array.getElem_modify]
    by_cases first : a = i <;> by_cases second : b = i <;> simp [first, second]
    exact (apart (first.trans second.symm)).elim
  exact congrArg (fun nodes => ({ doc with nodes } : Document ℓ)) nodes

/-- Takes a node from its parent, whose child list is left as it is. -/
def loosen (doc : Document ℓ) (id : NodeId) : Document ℓ :=
  doc.update id fun n => { n with parent := none }

theorem top_loosen (doc : Document ℓ) (id : NodeId) : ((doc.loosen id).node id).parent = none := by
  rw [loosen, node_update]
  split
  · rfl
  · rename_i outside
    rw [node_of_outside (Nat.le_of_not_lt fun inside => outside ⟨rfl, inside⟩)]

/-- A node without a parent is placed by writing to it and to its new parent. -/
theorem place_of_top (top : (doc.node c).parent = none) : doc.place p c =
    (doc.update c fun n => { n with parent := some p, released := false }).update p fun n =>
      flagChildren { n with children := n.children ++ [c] } := by
  simp only [place, detach, top]

theorem place_loosen {d : NodeId} (top : (doc.node c).parent = none) (apart : c ≠ d)
    (apart' : p ≠ d) : (doc.loosen d).place p c = (doc.place p c).loosen d := by
  have top' : ((doc.loosen d).node c).parent = none := by
    rwa [loosen, node_update_of_ne apart]
  rw [place_of_top top', place_of_top top, loosen, update_comm apart.symm, update_comm apart'.symm]
  rfl

theorem place_loosenAll {rest : List NodeId} (top : (doc.node c).parent = none) (fresh : c ∉ rest)
    (fresh' : p ∉ rest) :
    (rest.foldl loosen doc).place p c = rest.foldl loosen (doc.place p c) := by
  induction rest generalizing doc with
  | nil => rfl
  | cons d rest ih =>
    rw [List.mem_cons, not_or] at fresh fresh'
    have top' : ((doc.loosen d).node c).parent = none := by
      rwa [loosen, node_update_of_ne fresh.1]
    rw [List.foldl_cons, List.foldl_cons, ih top' fresh.2 fresh'.2,
      place_loosen top fresh.1 fresh'.1]

/-- Appends nodes one after the other, each of them taken from its parent first. -/
def appendLoosened (doc : Document ℓ) (parent : NodeId) (children : List NodeId) : Document ℓ :=
  children.foldl (fun doc c => (doc.loosen c).append parent c) doc

/-- No other node gets another parent. -/
theorem parent_place_loosen {n : NodeId} (other : n ≠ c) :
    (((doc.loosen c).place p c).node n).parent = (doc.node n).parent := by
  let link : Node ℓ → Node ℓ := fun n => flagChildren { n with children := n.children ++ [c] }
  rw [place_of_top (top_loosen doc c), update_keeps (f := link) Node.parent fun _ => rfl,
    node_update_of_ne other, loosen, node_update_of_ne other]

theorem above_before_loosen {a n : NodeId} (above : Above (doc.loosen c) a n) : Above doc a n := by
  refine above.mono fun n q parent => ?_
  by_cases same : n = c
  · rw [same, top_loosen] at parent
    cases parent
  · rwa [loosen, node_update_of_ne same] at parent

theorem append_loosen (placeable : Placeable doc p c) :
    (doc.loosen c).append p c = (doc.loosen c).place p c := by
  have kind : ((doc.loosen c).node c).kind = (doc.node c).kind :=
    update_keeps (f := fun n => { n with parent := none }) Node.kind (fun _ => rfl) c
  rw [append, if_neg, if_neg (kind ▸ placeable.inner)]
  rw [Bool.or_eq_true, decide_eq_true_eq, not_or]
  exact ⟨placeable.apart.symm, fun ancestor =>
    placeable.outside (above_before_loosen (above_of_climbsTo ancestor))⟩

theorem Placeable.after_loosen {d : NodeId} (placeable : Placeable doc p c)
    (later : Placeable doc p d) : Placeable ((doc.loosen c).place p c) p d := by
  have kind : (((doc.loosen c).place p c).node d).kind = (doc.node d).kind := by
    rw [(Node.own_inj (own_place _ p c d)).1]
    exact update_keeps (f := fun n => { n with parent := none }) Node.kind (fun _ => rfl) d
  refine placeable_of_inner (by rw [kind]; exact later.inner) later.apart fun above =>
    later.outside ?_
  exact above.before_elsewhere (fun _ => parent_place_loosen) placeable.apart placeable.outside

/-- Nodes are taken from their parents first and placed then, or both one by one. That a node does
not go into its own subtree is found again for each of them. -/
theorem appendLoosened_eq (children : List NodeId) (distinct : children.Nodup)
    (each : ∀ c ∈ children, Placeable doc p c) : doc.appendLoosened p children =
      children.foldl (fun doc c => doc.place p c) (children.foldl loosen doc) := by
  induction children generalizing doc with
  | nil => rfl
  | cons c rest ih =>
    obtain ⟨fresh, distinct⟩ := List.nodup_cons.mp distinct
    have first := each c List.mem_cons_self
    have later : ∀ d ∈ rest, Placeable ((doc.loosen c).place p c) p d := fun d member =>
      first.after_loosen (each d (List.mem_cons_of_mem _ member))
    have fresh' : p ∉ rest := fun member => (each p (List.mem_cons_of_mem _ member)).apart rfl
    -- Placing the first node and loosening the others write to different nodes.
    calc doc.appendLoosened p (c :: rest)
      _ = ((doc.loosen c).append p c).appendLoosened p rest := rfl
      _ = ((doc.loosen c).place p c).appendLoosened p rest := by rw [append_loosen first]
      _ = rest.foldl (fun doc c => doc.place p c) (rest.foldl loosen ((doc.loosen c).place p c)) :=
        ih distinct later
      _ = rest.foldl (fun doc c => doc.place p c)
          ((rest.foldl loosen (doc.loosen c)).place p c) := by
        rw [place_loosenAll (top_loosen doc c) fresh fresh']

/-- A fragment may as well be emptied, and each of its children taken from it and appended
on its own. -/
theorem append_eq_appendLoosened (formed : doc.WellFormed)
    (fragment : (doc.node c).kind = .fragment) (apart : p ≠ c) (outside : ¬ Above doc c p) :
    doc.append p c = (doc.cleared c).appendLoosened p (doc.node c).children := by
  have emptied : doc.emptyFragment c = (doc.node c).children.foldl loosen (doc.cleared c) := rfl
  rw [append_of_fragment formed fragment apart outside, emptied,
    appendLoosened_eq _ (formed.distinct c) fun d member => ?_]
  have parent := (formed.links c d).mp member
  have before : ∀ {a n}, Above (doc.cleared c) a n → Above doc a n := fun above =>
    above.mono fun n q parent => (cleared_keeps Node.parent (fun _ => rfl) c n).symm.trans parent
  refine placeable_of_inner (fun fragment => ?_) ?_
    fun above => outside (.trans (.parent parent) (before above))
  · have kind := (cleared_keeps Node.kind (fun _ => rfl) c d).symm.trans fragment
    cases (formed.fragments d kind).symm.trans parent
  · rintro rfl
    exact outside (.parent parent)

end OneByOne

/-- Appending moves a node, or the children of a fragment, and loses and doubles none. Nothing
happens when the node is the new parent or above it. Whatever a node has of its own it keeps. -/
theorem append_moves (reachable : Reachable s) (inside : p < s.doc.size) :
    let doc := (s.run (.appendChild p c)).doc
    (c = p ∨ Above s.doc c p → s.run (.appendChild p c) = s) ∧
    (¬ (c = p ∨ Above s.doc c p) → (s.doc.node c).kind ≠ .fragment → Moved p c s.doc doc) ∧
    (¬ (c = p ∨ Above s.doc c p) → (s.doc.node c).kind = .fragment → GaveAway p c s.doc doc) ∧
    (∀ n, (doc.node n).own = (s.doc.node n).own) ∧
    doc.WellFormed := by
  have formed := (good_of_reachable reachable).formed
  refine ⟨fun upper => ?_, fun lower inner => ?_, fun lower fragment => ?_,
    formed.own_append p c, formed.append inside c⟩
  · have same : s.doc.append p c = s.doc := append_of_upper formed upper
    exact congrArg (fun doc => { s with doc }) same
  · obtain ⟨apart, outside⟩ := not_or.mp lower
    have placeable := placeable_of_inner inner (Ne.symm apart) outside
    show Moved p c s.doc (s.doc.append p c)
    rw [append_of_placeable formed placeable]
    exact (placeable.relinks formed inside).moved formed
  · obtain ⟨apart, outside⟩ := not_or.mp lower
    exact gaveAway_append formed inside fragment (Ne.symm apart) outside

/-- A list with one item, a paragraph behind it, and a fragment with a text. -/
def notes : State Empty :=
  ([.parse "<ul><li>a</li></ul><p>b</p>", .createFragment, .createText "c", .appendChild 6 7,
    .hold 1, .hold 2] : List (Operation Empty)).foldl run State.start

/-- The list does not go into its item. The paragraph moves into the list, and the text out of the
fragment into the item. -/
theorem notes_append :
    notes.run (.appendChild 2 1) = notes ∧
    Moved 1 4 notes.doc (notes.run (.appendChild 1 4)).doc ∧
    ((notes.run (.appendChild 1 4)).doc.node 1).children = [2, 4] ∧
    ((notes.run (.appendChild 1 4)).doc.node 0).children = [1] ∧
    GaveAway 2 6 notes.doc (notes.run (.appendChild 2 6)).doc ∧
    ((notes.run (.appendChild 2 6)).doc.node 2).children = [3, 7] := by
  have reachable : Reachable notes := reachable_runAll .start
    (show State.start.AllowsAll [.parse "<ul><li>a</li></ul><p>b</p>", .createFragment,
      .createText "c", .appendChild 6 7, .hold 1, .hold 2] by decide +kernel)
  have formed := (good_of_reachable reachable).formed
  have upper : Above notes.doc 1 2 := .parent (by decide +kernel)
  have free : ∀ {p c}, c ≠ p → notes.doc.isAncestor c p = false →
      ¬ (c = p ∨ Above notes.doc c p) := by
    intro p c apart outside
    rw [← isAncestor_iff formed, outside]
    exact not_or.mpr ⟨apart, Bool.false_ne_true⟩
  obtain ⟨refused, -⟩ := append_moves (p := 2) (c := 1) reachable (by decide +kernel)
  obtain ⟨-, moved, -⟩ := append_moves (p := 1) (c := 4) reachable (by decide +kernel)
  obtain ⟨-, -, gaveAway, -⟩ := append_moves (p := 2) (c := 6) reachable (by decide +kernel)
  exact ⟨refused (.inr upper), moved (free (by decide) (by decide +kernel)) (by decide +kernel),
    by decide +kernel, by decide +kernel,
    gaveAway (free (by decide) (by decide +kernel)) (by decide +kernel), by decide +kernel⟩

end ReactiveView.Document
