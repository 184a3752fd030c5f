import ReactiveView.Proofs.Document.Containment
import ReactiveView.Proofs.Markup.Progress

/-! Markup is taken in as a whole. Reading it gets on until its end is reached, and no more slots
are taken for what it says than it has characters. -/
namespace ReactiveView.Document

open Cursor

variable {ℓ : Type} {held : NodeId → Bool}

mutual

/-- For each node of markup a slot is taken. -/
theorem length_taken_graft : ∀ (m : Markup) (doc : Document ℓ) (parent : NodeId),
    (taken held doc (graftMoves held parent m doc)).length = m.size
  | .element tag attributes children, doc, parent => by
    rw [graftMoves, taken_append, taken_adopt, moveAll_adopt, List.length_append,
      length_taken_graftAll children, Markup.size]
    exact Nat.add_comm 1 _
  | .text _, _, _ => rfl
  | .comment _, _, _ => rfl

theorem length_taken_graftAll : ∀ (ms : List Markup) (doc : Document ℓ) (parent : NodeId),
    (taken held doc (graftAllMoves held parent ms doc)).length = Markup.sizeAll ms
  | [], _, _ => rfl
  | m :: ms, doc, parent => by
    rw [graftAllMoves, taken_append, moveAll_graft, List.length_append, length_taken_graft m,
      length_taken_graftAll ms, Markup.sizeAll]

end

/-- For each token but the closing tags a slot is taken. -/
theorem length_taken_ofTokens (tokens : List Token) (doc : Document ℓ) (parent : NodeId) :
    (taken held doc (graftAllMoves held parent (Markup.ofTokens tokens) doc)).length =
      tokens.countP Token.makesNode := by
  rw [length_taken_graftAll, Markup.sizeAll_ofTokens]

/-- Reading markup always gets on, whatever the markup is. Each turn of the loop over the markup,
and of the loop over the attributes of a tag, begins where a character begins or at the end, does
not fail, and reads at least one character. Only where the text ends within a tag a turn has nothing
left to read, and that is the last one of its loop. The loops lead to the end of the markup, and for
the tokens that are read no more nodes are made than there are characters. -/
theorem markup_read_through (markup : String) :
    (∀ c, AtTurn markup c → c.OnBoundary markup ∧
      (c.atEnd = false → ∃ token c', c.turn? = some (token, c') ∧ c.Consumes c')) ∧
    (∀ c, AtTagTurn markup c → c.OnBoundary markup ∧
      ∃ turn c', c.tagTurn? = some (turn, c') ∧ c'.OnBoundary markup ∧
        if c.atEnd then turn = .ended false ∧ c' = c else c.Consumes c') ∧
    (⟨markup, 0⟩ : Cursor).read? = some (Token.scan markup.toList, ⟨markup, markup.rawEndPos⟩) ∧
    AtTurn markup ⟨markup, markup.rawEndPos⟩ ∧
    ∀ (held : NodeId → Bool) (doc : Document ℓ) (parent : NodeId),
      let moves := graftAllMoves held parent (Markup.parse markup) doc
      moveAll held doc moves = graftAll held parent (Markup.parse markup) doc ∧
        (taken held doc moves).length = (Token.scan markup.toList).countP Token.makesNode ∧
        (taken held doc moves).length ≤ markup.length := by
  obtain ⟨text, rfl⟩ : ∃ text, markup = String.ofList text := ⟨_, String.ofList_toList.symm⟩
  rw [← facing_nil, ← facing_self, String.toList_ofList]
  refine ⟨fun c here => ⟨here.onBoundary, here.consumes⟩,
    fun c here => ⟨here.onBoundary, here.consumes⟩, read?_facing List.suffix_rfl,
    atTurn_end List.suffix_rfl (facing_self text ▸ .start),
    fun held doc parent => ⟨moveAll_graftAll held parent _ doc, ?_⟩⟩
  rw [Markup.parse, String.toList_ofList, length_taken_ofTokens, String.length_ofList]
  exact ⟨rfl, Nat.le_trans List.countP_le_length (Token.length_scan text)⟩

/-- A tag that is cut off behind a stray sign. Its loop begins in front of the blank, and passes the
sign in a step of one byte, in front of a letter of two. -/
theorem cut_off_read_through :
    AtTagTurn "<p =é" ⟨"<p =é", ⟨2⟩⟩ ∧
    (∃ turn c, (⟨"<p =é", ⟨2⟩⟩ : Cursor).tagTurn? = some (turn, c) ∧
      (⟨"<p =é", ⟨2⟩⟩ : Cursor).Consumes c) ∧
    (⟨"<p =é", 0⟩ : Cursor).read? = some (Token.scan "<p =é".toList, ⟨"<p =é", ⟨6⟩⟩) ∧
    (taken (fun _ => false) (empty : Document Empty)
      (graftAllMoves (fun _ => false) rootId (Markup.parse "<p =é") empty)).length ≤ 5 := by
  have here : AtTagTurn "<p =é" ⟨"<p =é", ⟨2⟩⟩ :=
    .enter .start (@rest?_facing "<p =é".toList "<p =é".toList List.suffix_rfl) (by decide +kernel)
      (@tagName?_facing "<p =é".toList "p =é".toList List.suffix_rfl)
  obtain ⟨-, tag, read, -, nodes⟩ := @markup_read_through Empty "<p =é"
  obtain ⟨-, turn, c, run, -, consumes⟩ := tag _ here
  exact ⟨here, ⟨turn, c, run, consumes⟩, read, (nodes (fun _ => false) empty rootId).2.2⟩

end ReactiveView.Document
