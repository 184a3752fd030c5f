import ReactiveView.Proofs.Document.Operation

/-! What holds of every document that operations lead to: its nodes form one forest, and a slot that
is taken for a new node is fresh or was given up by everyone. A node that somebody can still reach,
from the root or from a reference, keeps its slot. -/
namespace ReactiveView.Document

variable {ℓ : Type}

theorem wellFormed_empty : (empty : Document ℓ).WellFormed := by
  have plain : ∀ n, (empty : Document ℓ).node n = { kind := .fragment } := by
    intro n
    by_cases first : n = 0
    · subst first
      rfl
    · exact node_of_outside (Nat.one_le_iff_ne_zero.mpr first)
  refine ⟨Nat.one_pos, fun p c => ?_, fun p => ?_, ⟨fun n => ⟨n, fun p parent => ?_⟩⟩,
    fun n _ => ?_, ?_, ?_, fun n released => ?_⟩
  · simp [plain]
  · simp [plain]
  · rw [plain] at parent
    cases parent
  · rw [plain]
  · rw [plain]
  · rw [plain]
  · rw [plain] at released
    cases released

/-- One move on the document of a state, or one change of what is held. -/
inductive Step (ℓ : Type) where
  | move (m : Move ℓ)
  | hold (id : NodeId)
  | drop (id : NodeId)

namespace State

variable {s : State ℓ}

def step (s : State ℓ) : Step ℓ → State ℓ
  | .move m => { s with doc := m.apply s.held s.doc }
  | .hold id => { s with refs := id :: s.refs }
  | .drop id => { s with refs := s.refs.erase id }

def stepAll (s : State ℓ) (steps : List (Step ℓ)) : State ℓ :=
  steps.foldl step s

/-- The steps together with the states in which they are taken. -/
def visits : State ℓ → List (Step ℓ) → List (State ℓ × Step ℓ)
  | _, [] => []
  | s, x :: rest => (s, x) :: visits (s.step x) rest

def moves (s : State ℓ) : Operation ℓ → List (Move ℓ)
  | .parse markup => graftAllMoves s.held rootId (Markup.parse markup) s.doc ++ [.clearMutations]
  | .createElement tag => [.alloc { kind := .element, tag := Text.lower tag }]
  | .createText data => [.alloc { kind := .text, data }]
  | .createFragment => [.alloc { kind := .fragment }]
  | .appendChild parent child => [.append parent child]
  | .setText id text => textMoves s.held s.doc id text
  | .setHtml id markup => htmlMoves s.held s.doc id markup
  | .setAttribute id name value =>
    if (s.doc.node id).attribute? name = some value then []
    else [.write id fun n =>
      { n with
        attributes := Entries.set name value n.attributes
        value := if name = "value" then value else n.value
        mutations := { n.mutations with attributes := true } }]
  | .setValue id value =>
    if (s.doc.node id).value = value then []
    else [.write id fun n =>
      { n with value := value, mutations := { n.mutations with value := true } }]
  | .listen id event listener =>
    [.write id fun n => { n with listeners := n.listeners ++ [(event, listener)] }]
  | .takeMutations id => [.write id fun n => { n with mutations := {} }]
  | .clearMutations => [.clearMutations]
  | .hold _ | .drop _ => []

/-- A node that is created for somebody is held at once. -/
def steps (s : State ℓ) (op : Operation ℓ) : List (Step ℓ) :=
  (s.moves op).map .move ++ match op with
    | .createElement tag =>
      [.hold (s.doc.alloc s.held { kind := .element, tag := Text.lower tag }).1]
    | .createText data => [.hold (s.doc.alloc s.held { kind := .text, data }).1]
    | .createFragment => [.hold (s.doc.alloc s.held { kind := .fragment }).1]
    | .hold id => [.hold id]
    | .drop id => [.drop id]
    | _ => []

theorem stepAll_moves (s : State ℓ) (moves : List (Move ℓ)) :
    s.stepAll (moves.map .move) = { s with doc := moveAll s.held s.doc moves } := by
  induction moves generalizing s with
  | nil => rfl
  | cons m rest ih =>
    simp only [List.map_cons, stepAll, List.foldl_cons] at ih ⊢
    exact ih _

/-- An operation is what its steps come to. -/
theorem stepAll_steps (s : State ℓ) (op : Operation ℓ) : s.stepAll (s.steps op) = s.run op := by
  have split :
      s.stepAll (s.steps op) =
        ({ s with doc := moveAll s.held s.doc (s.moves op) } : State ℓ).stepAll
      _ := (List.foldl_append).trans (congrArg (List.foldl step · _) (stepAll_moves s _))
  rw [split]
  cases op with
  | parse markup =>
    simp only [moves, moveAll_append, moveAll_graftAll]
    rfl
  | setText id text =>
    simp only [moves, moveAll_text]
    rfl
  | setHtml id markup =>
    simp only [moves, moveAll_html]
    rfl
  | setAttribute id name value =>
    simp only [moves, run, edit, setAttribute]
    split <;> rfl
  | setValue id value =>
    simp only [moves, run, edit, setValue]
    split <;> rfl
  | _ => rfl

/-- A well-formed document, with references to nodes that it has. -/
structure Good (s : State ℓ) : Prop where
  formed : s.doc.WellFormed
  inside : ∀ n ∈ s.refs, n < s.doc.size

theorem held_iff_mem {n : NodeId} : s.held n = true ↔ n ∈ s.refs := by
  simp [held]

theorem Good.bounded (good : s.Good) : ∀ n, s.held n = true → n < s.doc.size :=
  fun n isHeld => good.inside n (held_iff_mem.mp isHeld)

def Fits (s : State ℓ) : Step ℓ → Prop
  | .move m => m.Fits s.doc
  | .hold id => id < s.doc.size
  | .drop _ => True

theorem Good.step (good : s.Good) {x : Step ℓ} (fits : s.Fits x) : (s.step x).Good := by
  cases x with
  | move m =>
    exact ⟨good.formed.move fits,
      fun n member => Nat.lt_of_lt_of_le (good.inside n member) (good.formed.size_move m)⟩
  | hold id =>
    refine ⟨good.formed, fun n member => ?_⟩
    rcases List.mem_cons.mp member with rfl | member
    · exact fits
    · exact good.inside n member
  | drop id => exact ⟨good.formed, fun n member => good.inside n (List.mem_of_mem_erase member)⟩

def FitsAll : State ℓ → List (Step ℓ) → Prop
  | _, [] => True
  | s, x :: rest => s.Fits x ∧ FitsAll (s.step x) rest

theorem FitsAll.append {first later : List (Step ℓ)} (fits : s.FitsAll first)
    (fits' : (s.stepAll first).FitsAll later) : s.FitsAll (first ++ later) := by
  induction first generalizing s with
  | nil => exact fits'
  | cons x rest ih => exact ⟨fits.1, ih fits.2 fits'⟩

theorem fitsAll_moves {moves : List (Move ℓ)} (fits : FitAll s.held s.doc moves) :
    s.FitsAll (moves.map .move) := by
  induction moves generalizing s with
  | nil => trivial
  | cons m rest ih => exact ⟨fits.1, ih fits.2⟩

theorem Good.fitAll_moves (good : s.Good) {op : Operation ℓ} (allowed : s.Allows op) :
    FitAll s.held s.doc (s.moves op) := by
  cases op with
  | parse markup =>
    exact (fitAll_graftAll _ _ _ good.formed good.formed.inhabited).append ⟨trivial, trivial⟩
  | createElement tag => exact ⟨⟨rfl, rfl, rfl⟩, trivial⟩
  | createText data => exact ⟨⟨rfl, rfl, rfl⟩, trivial⟩
  | createFragment => exact ⟨⟨rfl, rfl, rfl⟩, trivial⟩
  | appendChild parent child => exact ⟨good.inside parent allowed, trivial⟩
  | setText id text => exact fitAll_text good.formed (good.inside id allowed) text
  | setHtml id markup => exact fitAll_html good.formed (good.inside id allowed) markup
  | setAttribute id name value =>
    simp only [moves]
    split
    · trivial
    · exact ⟨fun _ => ⟨rfl, rfl, rfl, rfl, rfl⟩, trivial⟩
  | setValue id value =>
    simp only [moves]
    split
    · trivial
    · exact ⟨fun _ => ⟨rfl, rfl, rfl, rfl, rfl⟩, trivial⟩
  | listen id event listener => exact ⟨fun _ => ⟨rfl, rfl, rfl, rfl, rfl⟩, trivial⟩
  | takeMutations id => exact ⟨fun _ => ⟨rfl, rfl, rfl, rfl, rfl⟩, trivial⟩
  | clearMutations => exact ⟨trivial, trivial⟩
  | hold id => trivial
  | drop id => trivial

theorem Good.fitsAll_steps (good : s.Good) {op : Operation ℓ} (allowed : s.Allows op) :
    s.FitsAll (s.steps op) := by
  refine (fitsAll_moves (good.fitAll_moves allowed)).append ?_
  have made : ∀ n, (s.doc.alloc s.held n).1 < (s.doc.alloc s.held n).2.size := fun n =>
    (allocates_alloc good.formed s.held n).inside
  cases op with
  | createElement tag => exact ⟨made _, trivial⟩
  | createText data => exact ⟨made _, trivial⟩
  | createFragment => exact ⟨made _, trivial⟩
  | hold id => exact ⟨allowed, trivial⟩
  | drop id => exact ⟨trivial, trivial⟩
  | _ => trivial

theorem Good.stepAll (good : s.Good) {steps : List (Step ℓ)} (fits : s.FitsAll steps) :
    (s.stepAll steps).Good := by
  induction steps generalizing s with
  | nil => exact good
  | cons x rest ih => exact ih (good.step fits.1) fits.2

theorem Good.run (good : s.Good) {op : Operation ℓ} (allowed : s.Allows op) : (s.run op).Good :=
  stepAll_steps s op ▸ good.stepAll (good.fitsAll_steps allowed)

theorem good_of_reachable (reachable : Reachable s) : s.Good := by
  induction reachable with
  | start => exact ⟨wellFormed_empty, fun _ member => nomatch member⟩
  | run _ allowed ih => exact ih.run allowed

theorem reachable_ofMarkup (markup : String) : Reachable (⟨ofMarkup markup, []⟩ : State ℓ) :=
  run_start_parse markup ▸ .run .start (show State.start.Allows (.parse markup) from trivial)

/-- A document that was parsed is well-formed. -/
theorem wellFormed_ofMarkup (markup : String) : (ofMarkup markup : Document ℓ).WellFormed :=
  (good_of_reachable (reachable_ofMarkup markup)).formed

theorem Good.visits (good : s.Good) {steps : List (Step ℓ)} (fits : s.FitsAll steps)
    {now : State ℓ} {x : Step ℓ} (visited : (now, x) ∈ s.visits steps) : now.Good ∧ now.Fits x := by
  induction steps generalizing s with
  | nil => cases visited
  | cons y rest ih =>
    rcases List.mem_cons.mp visited with same | later
    · obtain ⟨rfl, rfl⟩ := Prod.mk.inj same
      exact ⟨good, fits.1⟩
    · exact ih (good.step fits.1) fits.2 later

/-- The steps of operations that are run one after the other. -/
def allSteps : State ℓ → List (Operation ℓ) → List (Step ℓ)
  | _, [] => []
  | s, op :: rest => s.steps op ++ allSteps (s.run op) rest

def AllowsAll : State ℓ → List (Operation ℓ) → Prop
  | _, [] => True
  | s, op :: rest => s.Allows op ∧ AllowsAll (s.run op) rest

instance (s : State ℓ) : (op : Operation ℓ) → Decidable (s.Allows op)
  | .appendChild id _ | .setText id _ | .setHtml id _ | .setAttribute id _ _ | .setValue id _
  | .listen id _ _ | .takeMutations id => inferInstanceAs (Decidable (id ∈ s.refs))
  | .hold id => inferInstanceAs (Decidable (id < s.doc.size))
  | .parse _ | .createElement _ | .createText _ | .createFragment | .clearMutations | .drop _ =>
    isTrue trivial

instance decidableAllowsAll :
    (s : State ℓ) → (ops : List (Operation ℓ)) → Decidable (s.AllowsAll ops)
  | _, [] => isTrue trivial
  | s, op :: rest =>
    have := decidableAllowsAll (s.run op) rest
    inferInstanceAs (Decidable (s.Allows op ∧ AllowsAll (s.run op) rest))

theorem reachable_runAll {s : State ℓ} (reachable : Reachable s) {ops : List (Operation ℓ)}
    (allowed : s.AllowsAll ops) : Reachable (ops.foldl run s) := by
  induction ops generalizing s with
  | nil => exact reachable
  | cons op rest ih => exact ih (.run reachable allowed.1) allowed.2

theorem Good.fitsAll_allSteps (good : s.Good) {ops : List (Operation ℓ)}
    (allowed : s.AllowsAll ops) : s.FitsAll (s.allSteps ops) := by
  induction ops generalizing s with
  | nil => trivial
  | cons op rest ih =>
    refine (good.fitsAll_steps allowed.1).append ?_
    rw [stepAll_steps]
    exact ih (good.run allowed.1) allowed.2

end State

open State

/-- The tree of every document that operations lead to: parents and child lists agree, no node is
listed twice, the way up from every node ends, fragments have no parent, the root is never released,
and released nodes have no parent and are on the free list. -/
theorem forest_of_reachable {s : State ℓ} (reachable : Reachable s) :
    (∀ p c, c ∈ (s.doc.node p).children ↔ (s.doc.node c).parent = some p) ∧
    (∀ p, (s.doc.node p).children.Nodup) ∧
    WellFounded (fun p c => (s.doc.node c).parent = some p) ∧
    (∀ n, (s.doc.node n).kind = .fragment → (s.doc.node n).parent = none) ∧
    (s.doc.node rootId).released = false ∧
    ∀ n, (s.doc.node n).released = true → (s.doc.node n).parent = none ∧ n ∈ s.doc.free :=
  have formed := (good_of_reachable reachable).formed
  ⟨formed.links, formed.distinct, formed.acyclic, formed.fragments, formed.root_kept,
    formed.waiting⟩

/-- An element is dropped while it is held, let go, and its slot is used again. -/
def turnover : List (Operation Empty) :=
  [.hold 0, .createElement "P", .appendChild 0 1, .setText 1 "a", .setText 0 "b", .drop 1,
    .setText 0 "", .setText 0 "c"]

theorem forest_after_turnover :
    Reachable (turnover.foldl run State.start) ∧
    ((turnover.foldl run State.start).doc.node 0).children = [1] ∧
    ((turnover.foldl run State.start).doc.node 1).kind = .text ∧
    (∀ p c, c ∈ ((turnover.foldl run State.start).doc.node p).children ↔
      ((turnover.foldl run State.start).doc.node c).parent = some p) ∧
    WellFounded (fun p c => ((turnover.foldl run State.start).doc.node c).parent = some p) := by
  have reachable := reachable_runAll (.start : Reachable (State.start : State Empty))
    (show State.start.AllowsAll turnover by decide +kernel)
  have forest := forest_of_reachable reachable
  exact ⟨reachable, by decide +kernel, by decide +kernel, forest.1, forest.2.2.1⟩

/-- Kinds and tags over a run in which a node is sheltered all the time. -/
theorem kind_tag_of_sheltered {s : State ℓ} (good : s.Good) {steps : List (Step ℓ)}
    (fits : s.FitsAll steps) {id : NodeId}
    (sheltered : ∀ visit ∈ s.visits steps, Sheltered visit.1.held visit.1.doc id) :
    ∀ visit ∈ s.visits steps, ((visit.1.step visit.2).doc.node id).kind = (s.doc.node id).kind ∧
      ((visit.1.step visit.2).doc.node id).tag = (s.doc.node id).tag := by
  induction steps generalizing s with
  | nil => exact fun _ visited => nomatch visited
  | cons x rest ih =>
    have first : ((s.step x).doc.node id).kind = (s.doc.node id).kind ∧
        ((s.step x).doc.node id).tag = (s.doc.node id).tag := by
      cases x with
      | move m =>
        refine good.formed.kind_tag_move fits.1 fun n same => ?_
        have allocated := allocates_alloc good.formed s.held n
        exact (allocated.apart good.formed good.bounded (sheltered _ List.mem_cons_self)).symm
      | hold _ => exact ⟨rfl, rfl⟩
      | drop _ => exact ⟨rfl, rfl⟩
    intro visit visited
    rcases List.mem_cons.mp visited with rfl | later
    · exact first
    · obtain ⟨kind, tag⟩ := ih (good.step fits.1) fits.2
        (fun visit later => sheltered visit (List.mem_cons_of_mem _ later)) visit later
      exact ⟨kind.trans first.1, tag.trans first.2⟩

/-- Whenever a slot is taken, it is a new one, or it was released, has no parent and is not referred
to. A node that is sheltered in all states of a run keeps its slot: it is made into no other node,
its kind and tag stay, and a slot that is taken changes nothing that the node is made of. -/
theorem slots_given_up {s : State ℓ} (reachable : Reachable s) {ops : List (Operation ℓ)}
    (allowed : s.AllowsAll ops) :
    (∀ (now : State ℓ) n, (now, .move (.alloc n)) ∈ s.visits (s.allSteps ops) →
      (now.doc.alloc now.held n).1 = now.doc.size ∨
        (now.doc.node (now.doc.alloc now.held n).1).released = true ∧
        (now.doc.node (now.doc.alloc now.held n).1).parent = none ∧
        (now.doc.alloc now.held n).1 ∉ now.refs) ∧
    ∀ id, (∀ visit ∈ s.visits (s.allSteps ops), Sheltered visit.1.held visit.1.doc id) →
      ∀ (now : State ℓ) x, (now, x) ∈ s.visits (s.allSteps ops) →
        ((now.step x).doc.node id).kind = (s.doc.node id).kind ∧
        ((now.step x).doc.node id).tag = (s.doc.node id).tag ∧
        ∀ n, x = .move (.alloc n) → (now.doc.alloc now.held n).1 ≠ id ∧
          ((now.step x).doc.node id).attributes = (now.doc.node id).attributes ∧
          ((now.step x).doc.node id).data = (now.doc.node id).data ∧
          ((now.step x).doc.node id).value = (now.doc.node id).value ∧
          ((now.step x).doc.node id).listeners = (now.doc.node id).listeners ∧
          ((now.step x).doc.node id).children = (now.doc.node id).children ∧
          ((now.step x).doc.node id).mutations = (now.doc.node id).mutations := by
  have good := good_of_reachable reachable
  have fits := good.fitsAll_allSteps allowed
  refine ⟨fun now n visited => ?_, fun id sheltered now x visited => ?_⟩
  · obtain fresh | ⟨-, released, top, free⟩ :=
      (allocates_alloc (good.visits fits visited).1.formed now.held n).slot
    · exact .inl fresh
    · exact .inr ⟨released, top, by simpa [held] using free⟩
  · obtain ⟨kind, tag⟩ := kind_tag_of_sheltered good fits sheltered _ visited
    refine ⟨kind, tag, ?_⟩
    rintro n rfl
    have here := (good.visits fits visited).1
    have allocated := allocates_alloc here.formed now.held n
    have apart := allocated.apart here.formed (fun m isHeld => here.inside m (by
      simpa [held] using isHeld)) (sheltered _ visited)
    obtain ⟨own, children, mutations⟩ := Node.content_inj (allocated.content id apart)
    obtain ⟨-, -, attributes, data, value, listeners⟩ := Node.own_inj own
    exact ⟨apart.symm, attributes, data, value, listeners, children, mutations⟩

theorem slots_given_up_turnover :
    (State.start : State Empty).AllowsAll turnover ∧
    ((State.start.visits (State.start.allSteps turnover)).any fun visit =>
      match visit.2 with
      | .move (.alloc n) => (visit.1.doc.alloc visit.1.held n).1 == 1 && visit.1.doc.size == 4
      | _ => false) = true ∧
    ∀ (now : State Empty) n,
      (now, .move (.alloc n)) ∈ State.start.visits (State.start.allSteps turnover) →
      (now.doc.alloc now.held n).1 = now.doc.size ∨
        (now.doc.node (now.doc.alloc now.held n).1).released = true ∧
        (now.doc.node (now.doc.alloc now.held n).1).parent = none ∧
        (now.doc.alloc now.held n).1 ∉ now.refs := by
  have allowed : (State.start : State Empty).AllowsAll turnover := by decide +kernel
  exact ⟨allowed, by decide +kernel, (slots_given_up .start allowed).1⟩

end ReactiveView.Document
