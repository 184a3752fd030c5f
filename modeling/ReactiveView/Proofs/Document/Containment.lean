import ReactiveView.Proofs.Document.Confinement
import ReactiveView.Proofs.Document.Grafting

/-! Markup stays in its container. Setting the markup of a node changes nothing outside the node
that anybody can get at, and every slot that is taken meanwhile comes to hang below the node. What
the slots held before does matter in one way: the parent of the node itself may be lost, if it was
dropped and nobody can get at it. -/
namespace ReactiveView.Document

open State

variable {ℓ : Type} {doc doc' : Document ℓ} {held : NodeId → Bool} {s : State ℓ}
variable {e n p parent : NodeId} {added : List NodeId} {markup : String}

/-- The slots that moves take for new nodes, in order. -/
def taken (held : NodeId → Bool) : Document ℓ → List (Move ℓ) → List NodeId
  | _, [] => []
  | doc, .alloc n :: rest => (doc.alloc held n).1 :: taken held ((Move.alloc n).apply held doc) rest
  | doc, m :: rest => taken held (m.apply held doc) rest

theorem taken_append (first later : List (Move ℓ)) (doc : Document ℓ) :
    taken held doc (first ++ later) =
      taken held doc first ++ taken held (moveAll held doc first) later := by
  induction first generalizing doc with
  | nil => rfl
  | cons m rest ih =>
    cases m with
    | alloc n => exact congrArg _ (ih _)
    | _ => exact ih _

theorem taken_adopt (doc : Document ℓ) (parent : NodeId) (n : Node ℓ) :
    taken held doc (adoptMoves held doc parent n) = [(doc.alloc held n).1] := rfl

/-- What hangs below a node hangs there still when more is added to it. -/
theorem Extends.above (extended : Extends held doc doc' parent added)
    (stock : Stock held doc parent) (above : Above doc parent n) :
    Sheltered held doc n ∧ Above doc' parent n := by
  have hangs : ∀ {p c}, Sheltered held doc p → c ∈ (doc.node p).children →
      (doc'.node c).parent = some p := by
    intro p c sheltered member
    refine (extended.formed.links p c).mp ?_
    by_cases same : p = parent
    · rw [same] at member ⊢
      exact extended.children ▸ List.mem_append_left _ member
    · rwa [extended.others p sheltered same]
  induction above with
  | parent top =>
    have member := (stock.formed.links _ _).mpr top
    exact ⟨.child stock.sheltered member, .parent (hangs stock.sheltered member)⟩
  | further upper _ ih =>
    have member := (stock.formed.links _ _).mpr upper
    exact ⟨.child ih.1 member, .further (hangs ih.1 member) ih.2⟩

mutual

/-- The slots that are taken for markup come to hang below the node that it is grafted onto. -/
theorem above_graft : ∀ (m : Markup) (doc : Document ℓ) (parent : NodeId), Stock held doc parent →
    ∀ n ∈ taken held doc (graftMoves held parent m doc), Above (graft held parent m doc) parent n
  | .element tag attributes children, doc, parent, stock, n, member => by
    let top : Node ℓ := elementNode tag attributes
    have new : (Move.alloc top).Fits doc := ⟨rfl, rfl, rfl⟩
    have stock' := stock_adopt stock new nofun
    obtain ⟨ns, second, -⟩ := extends_graftAll children _ _ stock'
    have whole := extends_adopt_below stock new nofun second
    have child := (whole.stock_added stock (List.mem_singleton_self _)).2
    rw [graftMoves, taken_append, taken_adopt, moveAll_adopt] at member
    rcases List.mem_cons.mp member with rfl | inner
    · exact child
    · exact child.trans (above_graftAll children _ _ stock' n inner)
  | .text data, doc, parent, stock, n, member => by
    have new : (Move.alloc ({ kind := .text, data } : Node ℓ)).Fits doc := ⟨rfl, rfl, rfl⟩
    obtain ⟨first, -, -⟩ := extends_adopt stock new nofun
    exact (first.stock_added stock member).2
  | .comment data, doc, parent, stock, n, member => by
    have new : (Move.alloc ({ kind := .comment, data } : Node ℓ)).Fits doc := ⟨rfl, rfl, rfl⟩
    obtain ⟨first, -, -⟩ := extends_adopt stock new nofun
    exact (first.stock_added stock member).2

theorem above_graftAll : ∀ (ms : List Markup) (doc : Document ℓ) (parent : NodeId),
    Stock held doc parent → ∀ n ∈ taken held doc (graftAllMoves held parent ms doc),
      Above (graftAll held parent ms doc) parent n
  | [], _, _, _, _, member => nomatch member
  | m :: ms, doc, parent, stock, n, member => by
    obtain ⟨_, first, -⟩ := extends_graft m doc parent stock
    have stock' := first.stock stock
    obtain ⟨ns, second, -⟩ := extends_graftAll ms _ parent stock'
    rw [graftAllMoves, taken_append, moveAll_graft] at member
    rcases List.mem_append.mp member with member | member
    · exact (second.above stock' (above_graft m doc parent stock n member)).2
    · exact above_graftAll ms _ parent stock' n member

end

/-- The slots that are taken while the markup of a node is set come to hang below the node. -/
theorem above_setInnerHtml (formed : doc.WellFormed) (bounded : ∀ n, held n = true → n < doc.size)
    (isHeld : held e = true) :
    ∀ n ∈ taken held doc (htmlMoves held doc e markup),
      Above (doc.setInnerHtml held e markup) e n := by
  intro n member
  have bounded' : ∀ n, held n = true → n < (doc.clearChildren e).size := fun n isHeld =>
    Nat.lt_of_lt_of_eq (bounded n isHeld) (formed.size_clearChildren e).symm
  have stock : Stock held (doc.clearChildren e) e :=
    ⟨formed.clearChildren e, bounded', bounded' e isHeld, .held isHeld⟩
  unfold htmlMoves at member
  unfold setInnerHtml
  split at member
  · cases member
  · rename_i replaced
    rw [if_neg replaced]
    have inner : n ∈ taken held (doc.clearChildren e)
        (graftAllMoves held e (Markup.parse markup) (doc.clearChildren e)) := by
      simpa [taken, taken_append, Move.apply] using member
    refine (above_graftAll _ _ e stock n inner).congr fun m _ => ?_
    let flag : Node ℓ → Node ℓ := fun n =>
      { n with mutations := { n.mutations with innerHtml := true } }
    exact update_keeps (f := flag) Node.parent (fun _ => rfl) m

/-- The way down to a node does not pass the node. -/
theorem secure_of_above (formed : doc.WellFormed) (sheltered : Sheltered held doc n)
    (above : Above doc n e) : Secure held (· = e) doc n := by
  induction sheltered with
  | root => exact .root
  | held isHeld => exact .held isHeld
  | child _ member ih =>
    have upper := Above.trans (.parent ((formed.links _ _).mp member)) above
    exact .child (ih upper) (upper.ne formed) member

section Setting

variable (reachable : Reachable s) (allowed : s.Allows (.setHtml e markup))
include reachable allowed

theorem confined_run_setHtml :
    Confined s.held (· = e) (· = e) s.doc (s.run (.setHtml e markup)).doc := by
  have good := good_of_reachable reachable
  exact confined_setInnerHtml (fun _ isHeld => isHeld) good.formed good.bounded
    (good.inside e allowed) (by rfl) (by rfl) markup

theorem own_run_setHtml (inner : (s.doc.node e).isCharacterData = false) :
    ((s.run (.setHtml e markup)).doc.node e).own = (s.doc.node e).own := by
  have good := good_of_reachable reachable
  have renewed : Renewed s.held (· = e) s.doc (s.doc.setInnerHtml s.held e markup) :=
    renewed_setInnerHtml good.formed (good.inside e allowed) markup
  exact renewed.own_of_held (good.inside e allowed) (held_iff_mem.mpr allowed) inner

/-- A node keeps its parent when its markup is set, or it has lost one that nobody could get at. -/
theorem parent_run_setHtml :
    ((s.run (.setHtml e markup)).doc.node e).parent = (s.doc.node e).parent ∨
      ∃ p, (s.doc.node e).parent = some p ∧ ¬ Sheltered s.held s.doc p ∧
        ((s.run (.setHtml e markup)).doc.node e).parent = none := by
  have good := good_of_reachable reachable
  have confined := confined_run_setHtml reachable allowed
  have isHeld : s.held e = true := held_iff_mem.mpr allowed
  cases after : ((s.run (.setHtml e markup)).doc.node e).parent with
  | some q => exact .inl (confined.parent_before e q (.held isHeld) after).symm
  | none =>
    cases before : (s.doc.node e).parent with
    | none => exact .inl rfl
    | some p =>
      refine .inr ⟨p, rfl, fun sheltered => ?_, rfl⟩
      have secure := secure_of_above good.formed sheltered (.parent before)
      have listed := (good.formed.links p e).mpr before
      have apart : p ≠ e := (Above.parent before).ne good.formed
      rw [← confined.children p secure apart] at listed
      cases after.symm.trans (((good.run allowed).formed.links p e).mp listed)

/-- Markup cannot escape its container, whatever it closes. Outside the node that is set to it and
the subtree of that node, all that can be got at from the root or from a reference keeps everything
but its place. The slots that are taken come to hang below the node, and the node keeps what is its
own. It keeps its parent as well, or is left without one that could not be got at. -/
theorem markup_contained (inner : (s.doc.node e).isCharacterData = false) :
    let doc := (s.run (.setHtml e markup)).doc
    (∀ n, n ≠ e → ¬ Above s.doc e n → Sheltered s.held s.doc n →
      (doc.node n).content = (s.doc.node n).content) ∧
    (∀ n ∈ taken s.held s.doc (s.moves (.setHtml e markup)), Above doc e n) ∧
    (doc.node e).own = (s.doc.node e).own ∧
    ((doc.node e).parent = (s.doc.node e).parent ∨
      ∃ p, (s.doc.node e).parent = some p ∧ ¬ Sheltered s.held s.doc p ∧
        (doc.node e).parent = none) := by
  have good := good_of_reachable reachable
  have isHeld : s.held e = true := held_iff_mem.mpr allowed
  refine ⟨fun n other outside sheltered => ?_, ?_, own_run_setHtml reachable allowed inner,
    parent_run_setHtml reachable allowed⟩
  · obtain same | here | ⟨_, rfl, below⟩ :=
      (confined_run_setHtml reachable allowed).sheltered good.formed sheltered
    · exact same
    · exact absurd here other
    · exact absurd below outside
  · exact above_setInnerHtml good.formed good.bounded isHeld

end Setting

/-- A list with one item, which is held, and a paragraph behind it. -/
def menu : State Empty :=
  ([.parse "<ul><li>a</li></ul><p>b</p>", .hold 2] : List (Operation Empty)).foldl run State.start

/-- The item is set to markup that closes the item, the list and the paragraph. -/
theorem menu_contained :
    taken menu.held menu.doc (menu.moves (.setHtml 2 "</li></ul>x<b></li>y</b></p>z")) =
      [3, 6, 7, 8] ∧
    (∀ n ∈ [3, 6, 7, 8], Above (menu.run (.setHtml 2 "</li></ul>x<b></li>y</b></p>z")).doc 2 n) ∧
    ((menu.run (.setHtml 2 "</li></ul>x<b></li>y</b></p>z")).doc.node 4).content =
      (menu.doc.node 4).content := by
  have reachable : Reachable menu := reachable_runAll .start
    (show State.start.AllowsAll [.parse "<ul><li>a</li></ul><p>b</p>", .hold 2] by decide +kernel)
  have allowed : menu.Allows (.setHtml 2 "</li></ul>x<b></li>y</b></p>z") := by decide +kernel
  have slots : taken menu.held menu.doc (menu.moves (.setHtml 2 "</li></ul>x<b></li>y</b></p>z")) =
      [3, 6, 7, 8] := by decide +kernel
  obtain ⟨outside, inside, -⟩ := markup_contained reachable allowed (by decide +kernel)
  have apart : ¬ Above menu.doc 2 4 := by
    rw [← isAncestor_iff (good_of_reachable reachable).formed]
    decide +kernel
  have sheltered : Sheltered menu.held menu.doc 4 := .child .root (by decide +kernel)
  exact ⟨slots, slots ▸ inside, outside 4 (by decide) apart sheltered⟩

/-- An element whose parent was dropped: the one is held and the other is not. -/
def stray : State Empty :=
  ([.parse "<p><b></b></p>", .hold 0, .hold 2, .setText 0 ""] : List (Operation Empty)).foldl run
    State.start

/-- The slot of the parent is taken for the new content, and so the element loses its parent. -/
theorem stray_loses_parent :
    Reachable stray ∧ stray.Allows (.setHtml 2 "<i></i>") ∧ (stray.doc.node 2).kind = .element ∧
    (stray.doc.node 2).parent = some 1 ∧
    ((stray.run (.setHtml 2 "<i></i>")).doc.node 2).parent = none :=
  ⟨reachable_runAll .start (show State.start.AllowsAll
    [.parse "<p><b></b></p>", .hold 0, .hold 2, .setText 0 ""] by decide +kernel),
    by decide +kernel, by decide +kernel, by decide +kernel, by decide +kernel⟩

end ReactiveView.Document
