import ReactiveView.Proofs.Document.Grafting

/-! Parsing and writing. A tree whose nodes can be told apart in writing is parsed back as it was,
and after one parse nothing changes any more but that neighbouring texts run together. -/
namespace ReactiveView.Document

open State

variable {ℓ : Type} {doc : Document ℓ} {id : NodeId}

/-- What is read off a parsed document is what was parsed. -/
theorem innerMarkup_ofMarkup (markup : String) :
    (ofMarkup markup : Document ℓ).innerMarkup rootId = Markup.parse markup :=
  have formed := wellFormed_ofMarkup markup
  innerMarkup_of_showsAll formed formed.inhabited
    ((showsAll_ofMarkup markup).weaken Node.look_of_own)

/-- Parsing undoes writing: the tree below the root of the parsed document is the tree that was
written, with its kinds, tags, attributes, texts and comments, whatever the attribute values and
texts hold. -/
theorem parsed_as_written (formed : doc.WellFormed) (inside : id < doc.size) {ms : List Markup}
    (shown : doc.ShowsAll Node.look ms (doc.node id).children) (sound : ∀ m ∈ ms, m.Sound)
    (apart : Markup.Apart ms) (parted : ∀ m ∈ ms, m.Parted) :
    (ofMarkup (doc.innerHtml id) : Document ℓ).ShowsAll Node.look ms
        ((ofMarkup (doc.innerHtml id) : Document ℓ).node rootId).children ∧
      (ofMarkup (doc.innerHtml id) : Document ℓ).innerMarkup rootId = doc.innerMarkup id := by
  have parsed : Markup.parse (doc.innerHtml id) = ms := by
    rw [innerHtml, innerMarkup_of_showsAll formed inside shown,
      Markup.parse_writeAll sound apart parted]
  refine ⟨?_, ?_⟩
  · have shown : (ofMarkup (doc.innerHtml id) : Document ℓ).ShowsAll Node.own _ _ :=
      showsAll_ofMarkup _
    rw [parsed] at shown
    exact shown.weaken Node.look_of_own
  · rw [innerMarkup_ofMarkup, parsed, innerMarkup_of_showsAll formed inside shown]

/-- A comment that ends in a dash, and an element whose title and text hold the signs
that end them. -/
def leaflet : List (Operation Empty) :=
  [.parse "<!-- - --->", .hold 0, .createElement "A", .setAttribute 2 "title" "\"<b>\" & &quot;",
    .setAttribute 2 "hidden" "", .createText "1 < 2 &lt; 3", .appendChild 2 3, .createElement "br",
    .appendChild 2 4, .appendChild 0 2]

def leafletMarkup : List Markup :=
  [.comment " - -", .element "a" [("title", "\"<b>\" & &quot;"), ("hidden", "")]
    [.text "1 < 2 &lt; 3", .element "br" [] []]]

theorem leaflet_parsed_as_written :
    (leaflet.foldl run State.start).doc.ShowsAll Node.look leafletMarkup
        ((leaflet.foldl run State.start).doc.node 0).children ∧
      (ofMarkup ((leaflet.foldl run State.start).doc.innerHtml 0) : Document Empty).ShowsAll
        Node.look leafletMarkup ((ofMarkup ((leaflet.foldl run State.start).doc.innerHtml 0) :
          Document Empty).node rootId).children := by
  have reachable := reachable_runAll (.start : Reachable (State.start : State Empty))
    (show State.start.AllowsAll leaflet by decide +kernel)
  have shown : (leaflet.foldl run State.start).doc.ShowsAll Node.look leafletMarkup
      ((leaflet.foldl run State.start).doc.node 0).children := by decide +kernel
  have inner : ∀ m ∈ ([.text "1 < 2 &lt; 3", .element "br" [] []] : List Markup), m.Sound := by
    intro m member
    rcases List.mem_pair.mp member with rfl | rfl
    · exact .text (by decide)
    · exact .element (by decide +kernel) nofun List.nodup_nil (fun _ => rfl) nofun
  have sound : ∀ m ∈ leafletMarkup, m.Sound := by
    intro m member
    rcases List.mem_pair.mp member with rfl | rfl
    · exact .comment (by decide +kernel)
    · exact .element (by decide +kernel) (by decide +kernel) (by decide) nofun inner
  have apart : Markup.Apart leafletMarkup := by simp [Markup.Apart, leafletMarkup, Markup.isText]
  have parted : ∀ m ∈ leafletMarkup, m.Parted := by
    intro m member
    rcases List.mem_pair.mp member with rfl | rfl
    · exact .comment _
    · refine .element (by simp [Markup.Apart, Markup.isText]) fun m member => ?_
      rcases List.mem_pair.mp member with rfl | rfl
      · exact .text _
      · exact .element .nil nofun
  exact ⟨shown,
    (parsed_as_written (good_of_reachable reachable).formed (by decide +kernel) shown sound
    apart parted).1⟩

/-- One parse normalises, whatever is parsed. What is written of a parsed document is parsed into
the tree of that document, form values included, but that texts next to each other become one text,
and is written the same again. -/
theorem parsed_once (markup : String) :
    let once : Document ℓ := ofMarkup markup
    let twice : Document ℓ := ofMarkup (once.innerHtml rootId)
    once.ShowsAll Node.own (once.innerMarkup rootId) (once.node rootId).children ∧
      twice.ShowsAll Node.own (Markup.joinAll (once.innerMarkup rootId))
        (twice.node rootId).children ∧
      twice.innerMarkup rootId = Markup.joinAll (once.innerMarkup rootId) ∧
      twice.innerHtml rootId = once.innerHtml rootId := by
  have read : (ofMarkup markup : Document ℓ).innerMarkup rootId = Markup.parse markup :=
    innerMarkup_ofMarkup markup
  have again : Markup.parse ((ofMarkup markup : Document ℓ).innerHtml rootId) =
      Markup.joinAll (Markup.parse markup) := by
    rw [innerHtml, read, Markup.parse_writeAll_eq_joinAll (Markup.sound_parse markup)]
  dsimp only
  refine ⟨?_, ?_, ?_, ?_⟩
  · rw [read]
    exact showsAll_ofMarkup markup
  · rw [read, ← again]
    exact showsAll_ofMarkup _
  · rw [innerMarkup_ofMarkup, read, again]
  · rw [innerHtml, innerMarkup_ofMarkup, again, Markup.writeAll_joinAll, innerHtml, read]

end ReactiveView.Document
