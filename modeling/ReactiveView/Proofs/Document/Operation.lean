import ReactiveView.Proofs.Document.Move

/-! Operations on a document by way of references to its nodes, and the moves that each of them
makes one after the other. Slots are taken in the middle of an operation, so what holds of every
slot that is taken is said of the states between the moves. -/
namespace ReactiveView.Document

variable {ℓ : Type}

/-- A document and the references to its nodes that are held, each as often as it is held. -/
structure State (ℓ : Type) where
  doc : Document ℓ
  refs : List NodeId

def State.held (s : State ℓ) (n : NodeId) : Bool :=
  s.refs.contains n

/-- The state of a document that has just been made. -/
def State.start : State ℓ :=
  { doc := empty, refs := [] }

/-- Markup is parsed into the root. A reference to a child may be one into another document, so any
number may stand there. -/
inductive Operation (ℓ : Type) where
  | parse (markup : String)
  | createElement (tag : String)
  | createText (data : String)
  | createFragment
  | appendChild (parent child : NodeId)
  | setText (id : NodeId) (text : String)
  | setHtml (id : NodeId) (markup : String)
  | setAttribute (id : NodeId) (name value : String)
  | setValue (id : NodeId) (value : String)
  | listen (id : NodeId) (event : String) (listener : ℓ)
  | takeMutations (id : NodeId)
  | clearMutations
  | hold (id : NodeId)
  | drop (id : NodeId)

namespace State

def edit (s : State ℓ) (f : (NodeId → Bool) → Document ℓ → Document ℓ) : State ℓ :=
  { s with doc := f s.held s.doc }

/-- Makes a node and holds it. -/
def create (s : State ℓ) (n : Node ℓ) : State ℓ :=
  { doc := (s.doc.alloc s.held n).2, refs := (s.doc.alloc s.held n).1 :: s.refs }

def run (s : State ℓ) : Operation ℓ → State ℓ
  | .parse markup =>
    s.edit fun held doc => (graftAll held rootId (Markup.parse markup) doc).clearMutations
  | .createElement tag => s.create { kind := .element, tag := Text.lower tag }
  | .createText data => s.create { kind := .text, data }
  | .createFragment => s.create { kind := .fragment }
  | .appendChild parent child => s.edit fun _ doc => doc.append parent child
  | .setText id text => s.edit fun held doc => doc.setTextContent held id text
  | .setHtml id markup => s.edit fun held doc => doc.setInnerHtml held id markup
  | .setAttribute id name value => s.edit fun _ doc => doc.setAttribute id name value
  | .setValue id value => s.edit fun _ doc => doc.setValue id value
  | .listen id event listener => s.edit fun _ doc =>
    doc.update id fun n => { n with listeners := n.listeners ++ [(event, listener)] }
  | .takeMutations id => s.edit fun _ doc => doc.update id fun n => { n with mutations := {} }
  | .clearMutations => s.edit fun _ doc => doc.clearMutations
  | .hold id => { s with refs := id :: s.refs }
  | .drop id => { s with refs := s.refs.erase id }

/-- Operations on a node need a reference to it, and a reference can be had to any node. -/
def Allows (s : State ℓ) : Operation ℓ → Prop
  | .appendChild id _ | .setText id _ | .setHtml id _ | .setAttribute id _ _ | .setValue id _
  | .listen id _ _ | .takeMutations id => id ∈ s.refs
  | .hold id => id < s.doc.size
  | _ => True

end State

/-- The states that operations lead to. -/
inductive Reachable : State ℓ → Prop
  | start : Reachable State.start
  | run {s : State ℓ} {op : Operation ℓ} : Reachable s → s.Allows op → Reachable (s.run op)

/-- Parsing markup into a new document. -/
theorem run_start_parse (markup : String) :
    (State.start.run (.parse markup) : State ℓ) = { doc := ofMarkup markup, refs := [] } := rfl

section Moves

variable (held : NodeId → Bool)

def moveAll (doc : Document ℓ) (moves : List (Move ℓ)) : Document ℓ :=
  moves.foldl (Move.apply held) doc

def adoptMoves (doc : Document ℓ) (parent : NodeId) (n : Node ℓ) : List (Move ℓ) :=
  [.alloc n, .append parent (doc.alloc held n).1]

mutual

def graftMoves (parent : NodeId) : Markup → Document ℓ → List (Move ℓ)
  | .element tag attributes children, doc =>
    adoptMoves held doc parent (elementNode tag attributes) ++
      graftAllMoves (doc.alloc held (elementNode tag attributes)).1 children
        (doc.adopt held parent (elementNode tag attributes)).2
  | .text data, doc => adoptMoves held doc parent { kind := .text, data }
  | .comment data, doc => adoptMoves held doc parent { kind := .comment, data }

def graftAllMoves (parent : NodeId) : List Markup → Document ℓ → List (Move ℓ)
  | [], _ => []
  | m :: rest, doc => graftMoves parent m doc ++ graftAllMoves parent rest (graft held parent m doc)

end

def replaceMoves (doc : Document ℓ) (id : NodeId) (text : String) : List (Move ℓ) :=
  .clear id ::
    ((if text = "" then []
      else adoptMoves held (doc.clearChildren id) id { kind := .text, data := text }) ++
      [.write id flagText])

def dataMoves (doc : Document ℓ) (id : NodeId) (data : String) : List (Move ℓ) :=
  if (doc.node id).data = data then []
  else [.write id fun n => { n with data := data, mutations := { n.mutations with text := true } }]

def textMoves (doc : Document ℓ) (id : NodeId) (text : String) : List (Move ℓ) :=
  if (doc.node id).isCharacterData then doc.dataMoves id text
  else if text = "" then if (doc.node id).children = [] then [] else replaceMoves held doc id text
  else
    match doc.onlyText? id with
    | some child =>
      if (doc.node child).data = text then [] else doc.dataMoves child text ++ [.write id flagText]
    | none => replaceMoves held doc id text

def htmlMoves (doc : Document ℓ) (id : NodeId) (markup : String) : List (Move ℓ) :=
  if (doc.node id).isCharacterData || doc.innerHtml id = markup then []
  else
    .clear id :: (graftAllMoves held id (Markup.parse markup) (doc.clearChildren id) ++
      [.write id fun n => { n with mutations := { n.mutations with innerHtml := true } }])

theorem moveAll_append (doc : Document ℓ) (first later : List (Move ℓ)) :
    moveAll held doc (first ++ later) = moveAll held (moveAll held doc first) later :=
  List.foldl_append

theorem moveAll_adopt (doc : Document ℓ) (parent : NodeId) (n : Node ℓ) :
    moveAll held doc (adoptMoves held doc parent n) = (doc.adopt held parent n).2 := rfl

mutual

theorem moveAll_graft (parent : NodeId) :
    ∀ (m : Markup) (doc : Document ℓ), moveAll held doc (graftMoves held parent m doc) =
      graft held parent m doc
  | .element tag attributes children, doc => by
    rw [graftMoves, moveAll_append, moveAll_adopt, moveAll_graftAll]
    rfl
  | .text _, _ => rfl
  | .comment _, _ => rfl

theorem moveAll_graftAll (parent : NodeId) :
    ∀ (ms : List Markup) (doc : Document ℓ), moveAll held doc (graftAllMoves held parent ms doc) =
      graftAll held parent ms doc
  | [], _ => rfl
  | m :: rest, doc => by
    rw [graftAllMoves, moveAll_append, moveAll_graft, moveAll_graftAll]
    rfl

end

theorem moveAll_data (doc : Document ℓ) (id : NodeId) (data : String) :
    moveAll held doc (doc.dataMoves id data) = doc.setData id data := by
  unfold dataMoves setData
  split <;> rfl

theorem moveAll_replace (doc : Document ℓ) (id : NodeId) (text : String) :
    moveAll held doc (replaceMoves held doc id text) = doc.replaceByText held id text := by
  unfold replaceMoves replaceByText
  split <;> rfl

theorem moveAll_text (doc : Document ℓ) (id : NodeId) (text : String) :
    moveAll held doc (textMoves held doc id text) = doc.setTextContent held id text := by
  unfold textMoves setTextContent
  split
  · exact moveAll_data held doc id text
  · split
    · split
      · rfl
      · exact moveAll_replace held doc id text
    · cases doc.onlyText? id with
      | some child =>
        dsimp only
        split
        · rfl
        · rw [moveAll_append, moveAll_data]
          rfl
      | none => exact moveAll_replace held doc id text

theorem moveAll_html (doc : Document ℓ) (id : NodeId) (markup : String) :
    moveAll held doc (htmlMoves held doc id markup) = doc.setInnerHtml held id markup := by
  unfold htmlMoves setInnerHtml
  split
  · rfl
  · rw [show ∀ (m : Move ℓ) ms, moveAll held doc (m :: ms) = moveAll held (m.apply held doc) ms from
      fun _ _ => rfl, moveAll_append]
    rw [show Move.apply held doc (.clear id) = doc.clearChildren id from rfl, moveAll_graftAll]
    rfl

/-- Each of the moves fits the document that it is made on. -/
def FitAll : Document ℓ → List (Move ℓ) → Prop
  | _, [] => True
  | doc, m :: rest => m.Fits doc ∧ FitAll (m.apply held doc) rest

variable {held} {doc : Document ℓ}

theorem WellFormed.moveAll (formed : doc.WellFormed) {moves : List (Move ℓ)}
    (fits : FitAll held doc moves) :
    (moveAll held doc moves).WellFormed ∧ doc.size ≤ (Document.moveAll held doc moves).size := by
  induction moves generalizing doc with
  | nil => exact ⟨formed, Nat.le_refl _⟩
  | cons m rest ih =>
    obtain ⟨formed', grown⟩ := ih (formed.move fits.1) fits.2
    exact ⟨formed', Nat.le_trans (formed.size_move m) grown⟩

theorem FitAll.append {first later : List (Move ℓ)} (fits : FitAll held doc first)
    (fits' : FitAll held (Document.moveAll held doc first) later) :
    FitAll held doc (first ++ later) := by
  induction first generalizing doc with
  | nil => exact fits'
  | cons m rest ih => exact ⟨fits.1, ih fits.2 fits'⟩

theorem fitAll_adopt (formed : doc.WellFormed) {parent : NodeId} (inside : parent < doc.size)
    {n : Node ℓ} (new : (Move.alloc n).Fits doc) : FitAll held doc (adoptMoves held doc parent n) :=
  ⟨new, Nat.lt_of_lt_of_le inside (formed.size_move (.alloc n)), trivial⟩

theorem WellFormed.adopt (held : NodeId → Bool) (formed : doc.WellFormed) {parent : NodeId}
    (inside : parent < doc.size) {n : Node ℓ} (new : (Move.alloc n).Fits doc) :
    (doc.adopt held parent n).2.WellFormed ∧
      doc.size ≤ (doc.adopt held parent n).2.size ∧
      (doc.alloc held n).1 < (doc.adopt held parent n).2.size := by
  have fits : FitAll held doc (adoptMoves held doc parent n) := fitAll_adopt formed inside new
  obtain ⟨formed', grown⟩ := formed.moveAll fits
  refine ⟨formed', grown, ?_⟩
  have allocated := allocates_alloc formed held n
  refine Nat.lt_of_lt_of_eq allocated.inside (WellFormed.size_append ?_ parent _).symm
  exact allocated.wellFormed formed new.1 new.2.1 new.2.2

mutual

theorem fitAll_graft :
    ∀ (m : Markup) (doc : Document ℓ) (parent : NodeId), doc.WellFormed → parent < doc.size →
      FitAll held doc (graftMoves held parent m doc)
  | .element tag attributes children, doc, parent, formed, inside => by
    have new : (Move.alloc (elementNode tag attributes : Node ℓ)).Fits doc := ⟨rfl, rfl, rfl⟩
    obtain ⟨formed', -, inside'⟩ := formed.adopt held inside new
    exact (fitAll_adopt formed inside new).append (fitAll_graftAll children _ _ formed' inside')
  | .text _, _, _, formed, inside => fitAll_adopt formed inside ⟨rfl, rfl, rfl⟩
  | .comment _, _, _, formed, inside => fitAll_adopt formed inside ⟨rfl, rfl, rfl⟩

theorem fitAll_graftAll :
    ∀ (ms : List Markup) (doc : Document ℓ) (parent : NodeId), doc.WellFormed → parent < doc.size →
      FitAll held doc (graftAllMoves held parent ms doc)
  | [], _, _, _, _ => trivial
  | m :: rest, doc, parent, formed, inside => by
    have first := fitAll_graft m doc parent formed inside
    obtain ⟨formed', grown⟩ := formed.moveAll first
    rw [moveAll_graft] at formed' grown
    refine first.append ?_
    rw [moveAll_graft]
    exact fitAll_graftAll rest _ parent formed' (Nat.lt_of_lt_of_le inside grown)

end

theorem fitAll_data (id : NodeId) (data : String) : FitAll held doc (doc.dataMoves id data) := by
  unfold dataMoves
  split
  · trivial
  · exact ⟨fun _ => ⟨rfl, rfl, rfl, rfl, rfl⟩, trivial⟩

theorem fitAll_replace (formed : doc.WellFormed) {id : NodeId} (inside : id < doc.size)
    (text : String) : FitAll held doc (replaceMoves held doc id text) := by
  refine ⟨trivial, FitAll.append ?_ ⟨fun _ => ⟨rfl, rfl, rfl, rfl, rfl⟩, trivial⟩⟩
  split
  · trivial
  · exact fitAll_adopt (formed.clearChildren id) ((formed.size_clearChildren id).symm ▸ inside)
      ⟨rfl, rfl, rfl⟩

theorem fitAll_text (formed : doc.WellFormed) {id : NodeId} (inside : id < doc.size)
    (text : String) : FitAll held doc (textMoves held doc id text) := by
  unfold textMoves
  split
  · exact fitAll_data id text
  · split
    · split
      · trivial
      · exact fitAll_replace formed inside text
    · cases doc.onlyText? id with
      | some child =>
        dsimp only
        split
        · trivial
        · exact (fitAll_data child text).append ⟨fun _ => ⟨rfl, rfl, rfl, rfl, rfl⟩, trivial⟩
      | none => exact fitAll_replace formed inside text

theorem fitAll_html (formed : doc.WellFormed) {id : NodeId} (inside : id < doc.size)
    (markup : String) : FitAll held doc (htmlMoves held doc id markup) := by
  unfold htmlMoves
  split
  · trivial
  · exact ⟨trivial, (fitAll_graftAll _ _ _ (formed.clearChildren id)
      ((formed.size_clearChildren id).symm ▸ inside)).append
        ⟨fun _ => ⟨rfl, rfl, rfl, rfl, rfl⟩, trivial⟩⟩

end Moves
end ReactiveView.Document
