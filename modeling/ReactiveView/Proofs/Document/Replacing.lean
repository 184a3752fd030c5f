import ReactiveView.Proofs.Document.Parsing

/-! Setting the markup of a node gives what parsing the markup gives. Neither the way by which
markup that is there already is left alone, nor the slots that the new nodes are put into, can be
told from the tree, as long as the nodes below came from markup and were left as they were. -/
namespace ReactiveView.Document

open State

variable {ℓ : Type} {s : State ℓ} {doc : Document ℓ} {e n : NodeId}

/-- Nodes that came from parsing or from setting markup and were not changed since. Other nodes that
came from markup may have been put below an element that is written with a closing tag. -/
inductive Parsed : State ℓ → NodeId → Prop
  | parse {markup : String} {n : NodeId} : Above (ofMarkup markup : Document ℓ) rootId n →
      Parsed ⟨ofMarkup markup, []⟩ n
  | setHtml {s : State ℓ} {id n : NodeId} {markup : String} :
      Reachable s → s.Allows (.setHtml id markup) →
      (s.doc.node id).isCharacterData = false → s.doc.innerHtml id ≠ markup →
      Above (s.run (.setHtml id markup)).doc id n → Parsed (s.run (.setHtml id markup)) n
  | kept {s : State ℓ} {op : Operation ℓ} {n : NodeId} : Parsed s n → s.Allows op →
      ((s.run op).doc.node n).own = (s.doc.node n).own →
      ((s.run op).doc.node n).children = (s.doc.node n).children ∨
        (s.doc.node n).kind = .element ∧ Markup.isVoid (s.doc.node n).tag = false →
      Parsed (s.run op) n

/-- A node that is set to markup shows the markup. -/
theorem showsAll_run_setHtml (reachable : Reachable s) {markup : String}
    (allowed : s.Allows (.setHtml e markup)) (inner : (s.doc.node e).isCharacterData = false)
    (other : s.doc.innerHtml e ≠ markup) : (s.run (.setHtml e markup)).doc.ShowsAll Node.own
      (Markup.parse markup) ((s.run (.setHtml e markup)).doc.node e).children := by
  have good := good_of_reachable reachable
  exact showsAll_setInnerHtml good.formed good.bounded (held_iff_mem.mpr allowed) inner other

theorem plain_of_parsed (parsed : Parsed s n) : (s.doc.node n).Plain := by
  induction parsed with
  | parse above =>
    obtain ⟨m, sound, shown⟩ :=
      (showsAll_ofMarkup _).below (wellFormed_ofMarkup _) (Markup.sound_parse _) above
    exact plain_of_shows sound shown
  | setHtml reachable allowed inner other above =>
    have formed := ((good_of_reachable reachable).run allowed).formed
    obtain ⟨m, sound, shown⟩ := (showsAll_run_setHtml reachable allowed inner other).below formed
      (Markup.sound_parse _) above
    exact plain_of_shows sound shown
  | kept _ _ own children ih => exact ih.congr own children

/-- A node that shows sound markup has no listeners below it. -/
theorem silent_of_showsAll (formed : doc.WellFormed) {ms : List Markup}
    (shown : doc.ShowsAll Node.own ms (doc.node e).children) (sound : ∀ m ∈ ms, m.Sound)
    (above : Above doc e n) : (doc.node n).listeners = [] := by
  obtain ⟨m, -, shown⟩ := shown.below formed sound above
  cases m with
  | element _ _ _ => exact (Node.own_inj shown.1).2.2.2.2.2
  | text _ => exact (Node.own_inj shown.1).2.2.2.2.2
  | comment _ => exact (Node.own_inj shown.1).2.2.2.2.2

/-- After its markup was set, a node shows markup that reads as the parsed markup does once
neighbouring texts have run together. -/
theorem exists_showsAll_setHtml (reachable : Reachable s) {markup : String}
    (allowed : s.Allows (.setHtml e markup)) (inner : (s.doc.node e).isCharacterData = false)
    (parsed : ∀ n, Above s.doc e n → Parsed s n) :
    ∃ ms : List Markup, (∀ m ∈ ms, m.Sound) ∧ (s.run (.setHtml e markup)).doc.ShowsAll Node.own ms
        ((s.run (.setHtml e markup)).doc.node e).children ∧
      Markup.joinAll ms = Markup.joinAll (Markup.parse markup) := by
  have good := good_of_reachable reachable
  by_cases same : s.doc.innerHtml e = markup
  · -- The markup is left alone, and what it is parsed into is what it was written from.
    have inside := good.inside e allowed
    obtain ⟨ms, sound, shown⟩ :=
      exists_showsAll good.formed inside fun n above => plain_of_parsed (parsed n above)
    have left : (s.run (.setHtml e markup)).doc = s.doc := by
      show s.doc.setInnerHtml s.held e markup = s.doc
      rw [setInnerHtml, if_pos (by simp [same])]
    have read : Markup.parse markup = Markup.joinAll ms := by
      rw [← same, innerHtml,
        innerMarkup_of_showsAll good.formed inside (shown.weaken Node.look_of_own),
        Markup.parse_writeAll_eq_joinAll sound]
    refine ⟨ms, sound, left.symm ▸ shown, ?_⟩
    rw [read, Markup.joinAll_joinAll]
  · exact ⟨_, Markup.sound_parse markup, showsAll_run_setHtml reachable allowed inner same, rfl⟩

/-- Setting markup agrees with a fresh parse. Below an element or a fragment whose nodes came
from markup and were left as they were, the tree then is that of the parsed document, form
values included, up to texts next to each other. None of its nodes has listeners, and both are
written the same. -/
theorem set_html_as_parsed (reachable : Reachable s) {markup : String}
    (allowed : s.Allows (.setHtml e markup)) (inner : (s.doc.node e).isCharacterData = false)
    (parsed : ∀ n, Above s.doc e n → Parsed s n) :
    let doc := (s.run (.setHtml e markup)).doc
    let fresh : Document ℓ := ofMarkup markup
    doc.ShowsAll Node.own (doc.innerMarkup e) (doc.node e).children ∧
      fresh.ShowsAll Node.own (fresh.innerMarkup rootId) (fresh.node rootId).children ∧
      Markup.joinAll (doc.innerMarkup e) = Markup.joinAll (fresh.innerMarkup rootId) ∧
      (∀ n, Above doc e n → (doc.node n).listeners = []) ∧
      doc.innerHtml e = fresh.innerHtml rootId := by
  have good := (good_of_reachable reachable).run allowed
  obtain ⟨ms, sound, shown, joined⟩ := exists_showsAll_setHtml reachable allowed inner parsed
  have read := innerMarkup_of_showsAll good.formed (good.inside e allowed)
    (shown.weaken Node.look_of_own)
  have readFresh : (ofMarkup markup : Document ℓ).innerMarkup rootId = Markup.parse markup :=
    innerMarkup_ofMarkup markup
  dsimp only
  rw [innerHtml, innerHtml, read, readFresh]
  refine ⟨shown, showsAll_ofMarkup markup, joined,
    fun n above => silent_of_showsAll good.formed shown sound above, ?_⟩
  rw [← Markup.writeAll_joinAll ms, joined, Markup.writeAll_joinAll]

/-- The root is held and set to markup with a declaration in it, which is skipped
between two texts. -/
def poster : State Empty :=
  (([.parse "<i value=v>x</i>", .hold 0] : List (Operation Empty)).foldl run State.start).run
    (.setHtml 0 "a<!b>c<b>")

/-- The markup that is set is the markup there, although it would be parsed into fewer texts. -/
theorem poster_set_as_parsed :
    (poster.doc.node 0).children.length = 3 ∧ poster.doc.innerHtml 0 = "ac<b></b>" ∧
      Markup.joinAll ((poster.run (.setHtml 0 "ac<b></b>")).doc.innerMarkup 0) =
        Markup.joinAll ((ofMarkup "ac<b></b>" : Document Empty).innerMarkup rootId) ∧
      (poster.run (.setHtml 0 "ac<b></b>")).doc.innerHtml 0 =
        (ofMarkup "ac<b></b>" : Document Empty).innerHtml rootId := by
  have before := reachable_runAll (.start : Reachable (State.start : State Empty))
    (show State.start.AllowsAll [.parse "<i value=v>x</i>", .hold 0] by decide +kernel)
  have allowed : (([.parse "<i value=v>x</i>", .hold 0] : List (Operation Empty)).foldl run
      State.start).Allows (.setHtml 0 "a<!b>c<b>") := by decide +kernel
  have parsed : ∀ n, Above poster.doc 0 n → Parsed poster n := fun n above =>
    .setHtml before allowed (by decide +kernel) (by decide +kernel) above
  have agrees := set_html_as_parsed (.run before allowed : Reachable poster)
    (show poster.Allows (.setHtml 0 "ac<b></b>") by decide +kernel) (by decide +kernel) parsed
  exact ⟨by decide +kernel, by decide +kernel, agrees.2.2.1, agrees.2.2.2.2⟩

end ReactiveView.Document
