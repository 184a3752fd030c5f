import ReactiveView.Proofs.Document.Parsing

/-! Setting the text of a node. The node is left with that text and with nothing else, and what is
written of it is the escaped text, which is parsed back as it was. A text that is there already is
left alone. -/
namespace ReactiveView

namespace Markup

/-- The markup of a text; of the empty text there is none. -/
def ofText (text : String) : List Markup :=
  if text = "" then [] else [.text text]

theorem writeAll_ofText (text : String) :
    writeAll (ofText text) = Entity.escapeText text.toList := by
  unfold ofText
  split
  · rename_i empty
    rw [empty]
    rfl
  · simp only [writeAll, write, List.append_nil]

theorem textContentAll_ofText (text : String) : textContentAll (ofText text) = text := by
  unfold ofText
  split
  · rename_i empty
    exact empty.symm
  · exact String.append_empty

/-- An escaped text is parsed back as it was. -/
theorem parse_escapeText (text : String) :
    parse (String.ofList (Entity.escapeText text.toList)) = ofText text := by
  have sound : ∀ m ∈ ofText text, m.Sound := by
    unfold ofText
    split
    · nofun
    · rename_i some
      exact fun m member => List.mem_singleton.mp member ▸ .text some
  rw [← writeAll_ofText, parse_writeAll_eq_joinAll sound]
  unfold ofText
  split <;> rfl

end Markup

namespace Document

open State

variable {ℓ : Type} {doc : Document ℓ} {held : NodeId → Bool} {s : State ℓ} {n : NodeId}
  {text : String}

/-- The node has one child, a text node with the text, or no child if the text is empty. -/
structure HasText (doc : Document ℓ) (n : NodeId) (text : String) : Prop where
  childless : text = "" → (doc.node n).children = []
  only : text ≠ "" → ∃ c, (doc.node n).children = [c] ∧ (doc.node c).kind = .text ∧
    (doc.node c).data = text

theorem HasText.innerMarkup (hasText : doc.HasText n text) (inside : n < doc.size) :
    doc.innerMarkup n = Markup.ofText text := by
  unfold Markup.ofText
  split
  · exact innerMarkup_of_childless inside (hasText.childless ‹_›)
  · obtain ⟨c, only, isText, rfl⟩ := hasText.only ‹_›
    exact innerMarkup_of_text inside only isText

theorem HasText.innerHtml (hasText : doc.HasText n text) (inside : n < doc.size) :
    doc.innerHtml n = String.ofList (Entity.escapeText text.toList) := by
  rw [Document.innerHtml, hasText.innerMarkup inside, Markup.writeAll_ofText]

theorem HasText.textContent (hasText : doc.HasText n text) (inside : n < doc.size)
    (inner : (doc.node n).isCharacterData = false) : doc.textContent n = text := by
  rw [textContent_eq inner, hasText.innerMarkup inside, Markup.textContentAll_ofText]

theorem HasText.clearMutations (hasText : doc.HasText n text) :
    doc.clearMutations.HasText n text := by
  have same := sameForest_clearMutations doc
  refine ⟨fun empty => (same.children n).trans (hasText.childless empty), fun some => ?_⟩
  obtain ⟨c, only, isText, data⟩ := hasText.only some
  refine ⟨c, (same.children n).trans only, (same.kind c).trans isText, ?_⟩
  rw [node_clearMutations]
  exact data

/-- A text that is there already is left alone. -/
theorem HasText.setTextContent (hasText : doc.HasText n text)
    (inner : (doc.node n).isCharacterData = false) : doc.setTextContent held n text = doc := by
  unfold Document.setTextContent
  rw [if_neg (by simp [inner])]
  split
  · rw [if_pos (hasText.childless ‹_›)]
  · obtain ⟨c, only, isText, data⟩ := hasText.only ‹_›
    simp only [onlyText?_eq_some_iff.mpr ⟨only, isText⟩]
    exact if_pos data

/-- A node that is set to a text has that text. -/
theorem hasText_setTextContent (formed : doc.WellFormed) (inside : n < doc.size)
    (kept : ∀ m, n ≠ ((doc.clearChildren n).alloc held m).1)
    (inner : (doc.node n).isCharacterData = false) (text : String) :
    (doc.setTextContent held n text).HasText n text := by
  constructor
  · rintro rfl
    rw [Document.setTextContent, if_neg (by simp [inner]), if_pos rfl]
    split
    · assumption
    · have cleared := (node_clearChildren formed n).1
      rw [replaceByText, if_pos rfl]
      exact (update_keeps (f := flagText) Node.children (fun _ => rfl) n).trans cleared
  · intro some
    obtain ⟨-, empty⟩ | only := labelled_setTextContent formed inside kept inner text
    · exact absurd empty some
    · exact only

/-- An only text child is rewritten in place, and keeps all that is its own but the text. -/
theorem setTextContent_of_onlyText {c : NodeId} (formed : doc.WellFormed)
    (inner : (doc.node n).isCharacterData = false) (only : doc.onlyText? n = some c)
    (filled : text ≠ "") : ((doc.setTextContent held n text).node n).children = [c] ∧
      ((doc.setTextContent held n text).node c).own = { (doc.node c).own with data := text } := by
  have alone := (onlyText?_eq_some_iff.mp only).1
  have below := (parent_of_onlyText? formed only).1
  rw [Document.setTextContent, if_neg (by simp [inner]), if_neg filled]
  simp only [only]
  split
  · rename_i same
    subst same
    exact ⟨alone, rfl⟩
  · rename_i differs
    let write : Node ℓ → Node ℓ := fun n =>
      { n with data := text, mutations := { n.mutations with text := true } }
    rw [setData, if_neg differs]
    constructor
    · exact (update_keeps (f := flagText) Node.children (fun _ => rfl) n).trans
        ((update_keeps (f := write) Node.children (fun _ => rfl) n).trans alone)
    · refine (update_keeps (f := flagText) Node.own (fun _ => rfl) c).trans ?_
      rw [node_update_self (inside_of_parent below)]
      rfl

/-- An escaped text is parsed into a document with that text. -/
theorem textContent_ofMarkup (text : String) :
    (ofMarkup (String.ofList (Entity.escapeText text.toList)) : Document ℓ).textContent rootId =
      text := by
  have inner : ((ofMarkup (String.ofList (Entity.escapeText text.toList)) : Document ℓ).node
      rootId).isCharacterData = false := by
    rw [Node.isCharacterData, (wellFormed_ofMarkup _).root_fragment]
    rfl
  rw [textContent_eq inner, innerMarkup_ofMarkup, Markup.parse_escapeText,
    Markup.textContentAll_ofText]

/-- Setting a text that is there already changes nothing. -/
theorem run_setText_of_hasText (hasText : s.doc.HasText n text)
    (inner : (s.doc.node n).isCharacterData = false) : s.run (.setText n text) = s := by
  have same : s.doc.setTextContent s.held n text = s.doc := hasText.setTextContent inner
  exact congrArg (fun doc => { s with doc }) same

theorem hasText_run_setText (reachable : Reachable s) (allowed : s.Allows (.setText n text))
    (inner : (s.doc.node n).isCharacterData = false) :
    (s.run (.setText n text)).doc.HasText n text := by
  have good := good_of_reachable reachable
  exact hasText_setTextContent good.formed (good.inside n allowed)
    (not_taken_of_held good.formed good.bounded (held_iff_mem.mpr allowed)) inner text

theorem own_run_setText (reachable : Reachable s) (allowed : s.Allows (.setText n text))
    (inner : (s.doc.node n).isCharacterData = false) :
    ((s.run (.setText n text)).doc.node n).own = (s.doc.node n).own := by
  have good := good_of_reachable reachable
  have renewed : Renewed s.held (· = n) s.doc (s.doc.setTextContent s.held n text) :=
    renewed_setTextContent good.formed (good.inside n allowed) inner text
  exact renewed.own_of_held (good.inside n allowed) (held_iff_mem.mpr allowed) inner

/-- Setting the text of an element or a fragment, whatever its children are. The node then has that
text and nothing else, it is read as the text and written without any markup, and what is written is
parsed back into the text. An only text child stays, with the new text if that is not empty. Setting
the text again changes nothing, and sets no flag either when all flags have been cleared before. -/
theorem text_content_set (reachable : Reachable s) (allowed : s.Allows (.setText n text))
    (inner : (s.doc.node n).isCharacterData = false) :
    let once := s.run (.setText n text)
    once.doc.HasText n text ∧
    once.doc.textContent n = text ∧
    once.doc.innerHtml n = String.ofList (Entity.escapeText text.toList) ∧
    '<' ∉ (once.doc.innerHtml n).toList ∧
    Markup.parse (once.doc.innerHtml n) = Markup.ofText text ∧
    (ofMarkup (once.doc.innerHtml n) : Document ℓ).textContent rootId = text ∧
    (∀ c, (s.doc.node n).children = [c] → (s.doc.node c).kind = .text → text ≠ "" →
      (once.doc.node n).children = [c] ∧
        (once.doc.node c).own = { (s.doc.node c).own with data := text }) ∧
    once.run (.setText n text) = once ∧
    (once.run .clearMutations).run (.setText n text) = once.run .clearMutations := by
  have good := good_of_reachable reachable
  have hasText := hasText_run_setText reachable allowed inner
  have inside := (good.run allowed).inside n allowed
  have inner' : ((s.run (.setText n text)).doc.node n).isCharacterData = false := by
    rw [Node.isCharacterData, (Node.own_inj (own_run_setText reachable allowed inner)).1]
    exact inner
  have cleared : ((s.run (.setText n text)).doc.clearMutations.node n).isCharacterData = false := by
    rw [node_clearMutations]
    exact inner'
  dsimp only
  rw [hasText.innerHtml inside, String.toList_ofList]
  exact ⟨hasText, hasText.textContent inside inner', rfl, Entity.not_mem_escapeText _,
    Markup.parse_escapeText text, textContent_ofMarkup text,
    fun c only isText => setTextContent_of_onlyText good.formed inner
      (onlyText?_eq_some_iff.mpr ⟨only, isText⟩),
    run_setText_of_hasText hasText inner', run_setText_of_hasText hasText.clearMutations cleared⟩

/-- An element with an element and a text in it, and another one with no more than a text. -/
def captions : State Empty :=
  ([.parse "<p><b>a</b>b</p><p>c</p>", .hold 1, .hold 5] : List (Operation Empty)).foldl
    run State.start

/-- The first is set to a text that looks like markup, the second to another text and to none. -/
theorem captions_set :
    (captions.doc.node 1).children = [2, 4] ∧ (captions.doc.node 5).children = [6] ∧
    (captions.run (.setText 1 "</p>&lt;")).doc.innerHtml 1 = "&lt;/p&gt;&amp;lt;" ∧
    (ofMarkup ((captions.run (.setText 1 "</p>&lt;")).doc.innerHtml 1) :
      Document Empty).textContent rootId = "</p>&lt;" ∧
    ((captions.run (.setText 5 "d")).doc.node 5).children = [6] ∧
    ((captions.run (.setText 5 "")).doc.node 5).children = [] ∧
    (captions.run (.setText 5 "d")).run (.setText 5 "d") = captions.run (.setText 5 "d") := by
  have reachable : Reachable captions := reachable_runAll .start
    (show State.start.AllowsAll [.parse "<p><b>a</b>b</p><p>c</p>", .hold 1, .hold 5]
      by decide +kernel)
  have inner : (captions.doc.node 5).isCharacterData = false := by decide +kernel
  have only : (captions.doc.node 5).children = [6] := by decide +kernel
  obtain ⟨-, -, html, -, -, parsed, -⟩ := text_content_set reachable
    (show captions.Allows (.setText 1 "</p>&lt;") by decide +kernel) (by decide +kernel)
  obtain ⟨-, -, -, -, -, -, kept, again, -⟩ := text_content_set reachable
    (show captions.Allows (.setText 5 "d") by decide +kernel) inner
  obtain ⟨hasText, -⟩ := text_content_set reachable
    (show captions.Allows (.setText 5 "") by decide +kernel) inner
  exact ⟨by decide +kernel, only, html.trans (by decide +kernel), parsed,
    (kept 6 only (by decide +kernel) (by decide)).1, hasText.childless rfl, again⟩

end Document
end ReactiveView
