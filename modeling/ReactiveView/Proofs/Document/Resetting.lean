import ReactiveView.Proofs.Document.Containment
import ReactiveView.Proofs.Document.Replacing

/-! Setting the same markup again. A node is left alone by it if the markup is in the form in which
trees are written, or if it was there before the first time. Other markup is parsed again each time,
which is flagged, although the tree that comes of it is the one that it takes the place of. -/
namespace ReactiveView

/-- The form in which trees that could have come from markup are written. -/
def Markup.IsWritten (markup : String) : Prop :=
  ∃ ms : List Markup, (∀ m ∈ ms, m.Sound) ∧ markup = String.ofList (Markup.writeAll ms)

/-- Markup is in written form exactly if parsing and writing give it back. -/
theorem Markup.isWritten_iff {markup : String} :
    IsWritten markup ↔ String.ofList (writeAll (parse markup)) = markup := by
  constructor
  · rintro ⟨ms, sound, rfl⟩
    rw [parse_writeAll_eq_joinAll sound, writeAll_joinAll]
  · intro same
    exact ⟨parse markup, sound_parse markup, same.symm⟩

namespace Document

open State

variable {ℓ : Type} {s : State ℓ} {doc doc' : Document ℓ} {e : NodeId} {markup : String}

theorem markupAll_map_congr {branch branch' : NodeId → Branch ℓ} :
    ∀ ns : List NodeId, (∀ n ∈ ns, (branch' n).markup = (branch n).markup) →
      Branch.markupAll (ns.map branch') = Branch.markupAll (ns.map branch)
  | [], _ => rfl
  | n :: ns, same => by
    obtain ⟨first, later⟩ := List.forall_mem_cons.mp same
    simp only [List.map_cons, Branch.markupAll, first, markupAll_map_congr ns later]

/-- What is not written of nodes does not show in the markup of a branch. -/
theorem markup_branchTo (look : ∀ n, (doc'.node n).look = (doc.node n).look)
    (children : ∀ n, (doc'.node n).children = (doc.node n).children) (levels : Nat) (n : NodeId) :
    (doc'.branchTo levels n).markup = (doc.branchTo levels n).markup := by
  induction levels generalizing n with
  | zero =>
    obtain ⟨kind, tag, attributes, data⟩ := Node.look_inj (look n)
    simp only [branchTo, Branch.markup, kind, tag, attributes, data]
  | succ levels ih =>
    obtain ⟨kind, tag, attributes, data⟩ := Node.look_inj (look n)
    have below := markupAll_map_congr (doc.node n).children fun c _ => ih c
    simp only [branchTo, Branch.markup, kind, tag, attributes, data, children, below]

theorem innerHtml_congr (size : doc'.size = doc.size)
    (look : ∀ n, (doc'.node n).look = (doc.node n).look)
    (children : ∀ n, (doc'.node n).children = (doc.node n).children) (n : NodeId) :
    doc'.innerHtml n = doc.innerHtml n := by
  have same : doc'.innerMarkup n = doc.innerMarkup n := by
    unfold innerMarkup branch
    rw [size]
    cases doc.size with
    | zero => rfl
    | succ levels =>
      simp only [branchTo, Branch.children, children]
      exact markupAll_map_congr _ fun c _ => markup_branchTo look children levels c
  rw [innerHtml, innerHtml, same]

theorem takeMutations_keeps {β : Type} (field : Node ℓ → β)
    (kept : ∀ n, field { n with mutations := {} } = field n) (s : State ℓ) (e n : NodeId) :
    field ((s.run (.takeMutations e)).doc.node n) = field (s.doc.node n) :=
  update_keeps field kept n

/-- Taking the flags of a node changes nothing that is read of the tree. -/
theorem innerHtml_takeMutations (s : State ℓ) (e n : NodeId) :
    (s.run (.takeMutations e)).doc.innerHtml n = s.doc.innerHtml n :=
  innerHtml_congr (size_update s.doc e _) (takeMutations_keeps Node.look (fun _ => rfl) s e)
    (takeMutations_keeps Node.children (fun _ => rfl) s e) n

theorem mutations_takeMutations (inside : e < s.doc.size) :
    ((s.run (.takeMutations e)).doc.node e).mutations = {} :=
  congrArg Node.mutations (node_update_self inside fun n => { n with mutations := {} })

/-- Markup that is there already is left alone. -/
theorem run_setHtml_of_same (there : s.doc.innerHtml e = markup) :
    s.run (.setHtml e markup) = s := by
  have left : s.doc.setInnerHtml s.held e markup = s.doc := by
    rw [setInnerHtml, if_pos (by simp [there])]
  exact congrArg (fun doc => { s with doc := doc }) left

/-- Markup that is parsed is flagged. -/
theorem innerHtml_flagged (good : s.Good) (allowed : s.Allows (.setHtml e markup))
    (inner : (s.doc.node e).isCharacterData = false) (other : s.doc.innerHtml e ≠ markup) :
    ((s.run (.setHtml e markup)).doc.node e).mutations.innerHtml = true := by
  have inside : e < (s.run (.setHtml e markup)).doc.size := (good.run allowed).inside e allowed
  simp only [run, edit, setInnerHtml, inner, other, Bool.false_or, decide_false, Bool.false_eq_true,
    if_false, size_update] at inside ⊢
  rw [node_update_self inside]

/-- A node that was set to other markup than was there is written as the markup is parsed. -/
theorem innerHtml_run_setHtml (reachable : Reachable s) (allowed : s.Allows (.setHtml e markup))
    (inner : (s.doc.node e).isCharacterData = false) (other : s.doc.innerHtml e ≠ markup) :
    (s.run (.setHtml e markup)).doc.innerHtml e =
      String.ofList (Markup.writeAll (Markup.parse markup)) := by
  have good := (good_of_reachable reachable).run allowed
  have shown := showsAll_run_setHtml reachable allowed inner other
  rw [innerHtml, innerMarkup_of_showsAll good.formed (good.inside e allowed)
    (shown.weaken Node.look_of_own)]

/-- Markup that was set is found to be there exactly if it was there before or is in
written form. -/
theorem innerHtml_run_setHtml_eq_iff (reachable : Reachable s)
    (allowed : s.Allows (.setHtml e markup)) (inner : (s.doc.node e).isCharacterData = false) :
    (s.run (.setHtml e markup)).doc.innerHtml e = markup ↔
      s.doc.innerHtml e = markup ∨ Markup.IsWritten markup := by
  by_cases same : s.doc.innerHtml e = markup
  · rw [run_setHtml_of_same same]
    exact ⟨.inl, fun _ => same⟩
  · rw [innerHtml_run_setHtml reachable allowed inner same, Markup.isWritten_iff]
    exact (or_iff_right same).symm

/-- Setting the same markup again, after the flags were taken, changes nothing if the markup is in
written form or was there to begin with. Other markup takes the place of the tree that it was parsed
into the first time by the same tree, which is flagged. -/
theorem set_html_again (reachable : Reachable s) (allowed : s.Allows (.setHtml e markup))
    (inner : (s.doc.node e).isCharacterData = false) :
    let before := (s.run (.setHtml e markup)).run (.takeMutations e)
    let after := before.run (.setHtml e markup)
    (s.doc.innerHtml e = markup ∨ Markup.IsWritten markup →
      after = before ∧ (after.doc.node e).mutations = {}) ∧
    (s.doc.innerHtml e ≠ markup → ¬ Markup.IsWritten markup →
      (after.doc.node e).mutations.innerHtml = true ∧
      before.doc.ShowsAll Node.own (Markup.parse markup) (before.doc.node e).children ∧
      after.doc.ShowsAll Node.own (Markup.parse markup) (after.doc.node e).children ∧
      after.doc.innerHtml e = before.doc.innerHtml e) := by
  have once : Reachable (s.run (.setHtml e markup)) := .run reachable allowed
  have taken : Reachable ((s.run (.setHtml e markup)).run (.takeMutations e)) := .run once allowed
  have read := innerHtml_takeMutations (s.run (.setHtml e markup)) e e
  have found := innerHtml_run_setHtml_eq_iff reachable allowed inner
  rw [← read] at found
  constructor
  · intro settled
    rw [run_setHtml_of_same (found.mpr settled)]
    exact ⟨rfl, mutations_takeMutations ((good_of_reachable once).inside e allowed)⟩
  · intro other unwritten
    have gone := mt found.mp (not_or.mpr ⟨other, unwritten⟩)
    have own : ∀ n, (((s.run (.setHtml e markup)).run (.takeMutations e)).doc.node n).own =
        ((s.run (.setHtml e markup)).doc.node n).own :=
      takeMutations_keeps Node.own (fun _ => rfl) _ e
    have still : (((s.run (.setHtml e markup)).run (.takeMutations e)).doc.node e).isCharacterData =
        false := by
      have kept := (own e).trans (own_run_setHtml reachable allowed inner)
      rw [Node.isCharacterData, (Node.own_inj kept).1]
      exact inner
    have shown := showsAll_run_setHtml reachable allowed inner other
    refine ⟨innerHtml_flagged (good_of_reachable taken) allowed still gone,
      .of_same (fun n => ⟨own n, takeMutations_keeps Node.children (fun _ => rfl) _ e n⟩) shown,
      showsAll_run_setHtml taken allowed still gone, ?_⟩
    rw [innerHtml_run_setHtml taken allowed still gone, read,
      innerHtml_run_setHtml reachable allowed inner other]

/-- A block that is held and empty. -/
def panel : State Empty :=
  ([.parse "<div></div>", .hold 1] : List (Operation Empty)).foldl run State.start

theorem reachable_panel : Reachable panel :=
  reachable_runAll .start
    (show State.start.AllowsAll [.parse "<div></div>", .hold 1] by decide +kernel)

/-- Markup with a quoted value and an entity is in written form, and a single quote is not. -/
theorem panel_set_again :
    (((panel.run (.setHtml 1 "<b id=\"x\">a &lt; b</b>")).run (.takeMutations 1)).run
        (.setHtml 1 "<b id=\"x\">a &lt; b</b>") =
      (panel.run (.setHtml 1 "<b id=\"x\">a &lt; b</b>")).run (.takeMutations 1)) ∧
    ((((panel.run (.setHtml 1 "<b id='x'>a</b>")).run (.takeMutations 1)).run
        (.setHtml 1 "<b id='x'>a</b>")).doc.node 1).mutations.innerHtml = true ∧
    (((panel.run (.setHtml 1 "<b id='x'>a</b>")).run (.takeMutations 1)).run
        (.setHtml 1 "<b id='x'>a</b>")).doc.innerHtml 1 =
      ((panel.run (.setHtml 1 "<b id='x'>a</b>")).run (.takeMutations 1)).doc.innerHtml 1 := by
  have written : Markup.IsWritten "<b id=\"x\">a &lt; b</b>" :=
    Markup.isWritten_iff.mpr (by decide +kernel)
  have unwritten : ¬ Markup.IsWritten "<b id='x'>a</b>" :=
    mt Markup.isWritten_iff.mp (by decide +kernel)
  have allowed : panel.Allows (.setHtml 1 "<b id=\"x\">a &lt; b</b>") := by decide +kernel
  have allowed' : panel.Allows (.setHtml 1 "<b id='x'>a</b>") := by decide +kernel
  have settled := (set_html_again reachable_panel allowed (by decide +kernel)).1 (.inr written)
  obtain ⟨flagged, -, -, same⟩ :=
    (set_html_again reachable_panel allowed' (by decide +kernel)).2 (by decide +kernel) unwritten
  exact ⟨settled.1, flagged, same⟩

/-- An unclosed element is closed in writing, so it is never found to be there already. -/
theorem unclosed_flagged_again :
    Reachable panel ∧ panel.Allows (.setHtml 1 "<p>") ∧ (panel.doc.node 1).kind = .element ∧
    ((((panel.run (.setHtml 1 "<p>")).run (.takeMutations 1)).run (.setHtml 1 "<p>")).doc.node
      1).mutations = { innerHtml := true, children := true } :=
  ⟨reachable_panel, by decide +kernel, by decide +kernel, by decide +kernel⟩

end Document
end ReactiveView
