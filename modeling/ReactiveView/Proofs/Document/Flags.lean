import ReactiveView.Proofs.Document.Reuse

/-! What the mutation flags of a node record. Every move of every operation flags what it changes of
a node that is held, with one exception: the attribute `value` is the form value as well, and
setting it is flagged as a change of attributes alone. -/
namespace ReactiveView

variable {ℓ : Type}

/-- No flag went, and what differs is flagged. A form value may have come with an attribute, if the
proposition holds. -/
structure Node.Records (byAttribute : Prop) (before after : Node ℓ) : Prop where
  value : after.mutations.value = false → before.mutations.value = false ∧
    (after.value = before.value ∨ byAttribute ∧ after.mutations.attributes = true)
  data : after.mutations.text = false →
    before.mutations.text = false ∧ after.data = before.data
  attributes : after.mutations.attributes = false →
    before.mutations.attributes = false ∧ after.attributes = before.attributes
  children : after.mutations.children = false →
    before.mutations.children = false ∧ after.children = before.children

namespace Node.Records

variable {byAttribute : Prop} {n n' n'' : Node ℓ}

theorem refl (n : Node ℓ) : n.Records byAttribute n :=
  ⟨fun clear => ⟨clear, .inl rfl⟩, fun clear => ⟨clear, rfl⟩, fun clear => ⟨clear, rfl⟩,
    fun clear => ⟨clear, rfl⟩⟩

theorem trans (first : n.Records byAttribute n') (later : n'.Records byAttribute n'') :
    n.Records byAttribute n'' where
  value clear := by
    obtain ⟨clear', same'⟩ := later.value clear
    obtain ⟨clear'', same⟩ := first.value clear'
    refine ⟨clear'', ?_⟩
    rcases same' with same' | flagged
    · rcases same with same | ⟨written, flagged⟩
      · exact .inl (same'.trans same)
      · -- The flag of the attribute is still there.
        refine .inr ⟨written, (Bool.not_eq_false _).mp fun clear => ?_⟩
        exact Bool.false_ne_true ((later.attributes clear).1.symm.trans flagged)
    · exact .inr flagged
  data clear := by
    obtain ⟨clear', same'⟩ := later.data clear
    obtain ⟨clear'', same⟩ := first.data clear'
    exact ⟨clear'', same'.trans same⟩
  attributes clear := by
    obtain ⟨clear', same'⟩ := later.attributes clear
    obtain ⟨clear'', same⟩ := first.attributes clear'
    exact ⟨clear'', same'.trans same⟩
  children clear := by
    obtain ⟨clear', same'⟩ := later.children clear
    obtain ⟨clear'', same⟩ := first.children clear'
    exact ⟨clear'', same'.trans same⟩

theorem mono {byAttribute' : Prop} (records : n.Records byAttribute n')
    (weaker : byAttribute → byAttribute') : n.Records byAttribute' n' where
  value clear := by
    obtain ⟨clear', same⟩ := records.value clear
    exact ⟨clear', same.imp_right (.imp_left weaker)⟩
  data := records.data
  attributes := records.attributes
  children := records.children

theorem of_content (same : n'.content = n.content) : n.Records byAttribute n' := by
  obtain ⟨own, children, mutations⟩ := Node.content_inj same
  obtain ⟨-, -, attributes, data, value, -⟩ := Node.own_inj own
  exact ⟨fun clear => ⟨mutations ▸ clear, .inl value⟩, fun clear => ⟨mutations ▸ clear, data⟩,
    fun clear => ⟨mutations ▸ clear, attributes⟩, fun clear => ⟨mutations ▸ clear, children⟩⟩

end Node.Records

namespace Document

variable {doc : Document ℓ} {held : NodeId → Bool} {byAttribute : Prop} {n : NodeId}

/-- A new child list is recorded by the flag that is set with it. -/
theorem records_flagChildren {before after : Node ℓ} (own : after.own = before.own)
    (mutations : after.mutations = before.mutations) :
    before.Records byAttribute (flagChildren after) := by
  obtain ⟨-, -, attributes, data, value, -⟩ := Node.own_inj own
  exact ⟨fun clear => ⟨mutations ▸ clear, .inl value⟩, fun clear => ⟨mutations ▸ clear, data⟩,
    fun clear => ⟨mutations ▸ clear, attributes⟩, nofun⟩

theorem records_update {id : NodeId} {f : Node ℓ → Node ℓ}
    (records : id = n → ∀ m, Node.Records byAttribute m (f m)) :
    (doc.node n).Records byAttribute ((doc.update id f).node n) := by
  rw [node_update]
  split
  · rename_i both
    exact both.1 ▸ records both.1.symm _
  · exact .refl _

/-- Where a node hangs is not flagged on the node itself. -/
theorem records_relocate {id : NodeId} {f : Node ℓ → Node ℓ}
    (same : ∀ m, (f m).content = m.content) :
    (doc.node n).Records byAttribute ((doc.update id f).node n) :=
  .of_content (update_keeps Node.content same n)

theorem records_relist (doc : Document ℓ) (id n : NodeId) (list : List NodeId → List NodeId) :
    (doc.node n).Records byAttribute
      ((doc.update id fun n => flagChildren { n with children := list n.children }).node n) :=
  records_update fun _ _ => records_flagChildren rfl rfl

theorem records_detach (doc : Document ℓ) (child n : NodeId) :
    (doc.node n).Records byAttribute ((doc.detach child).node n) := by
  unfold detach
  split
  · exact .refl _
  · refine .trans ?_ (records_relist _ _ n (·.filter (· != child)))
    exact records_relocate fun _ => rfl

theorem records_place (doc : Document ℓ) (parent child n : NodeId) :
    (doc.node n).Records byAttribute ((doc.place parent child).node n) := by
  unfold place
  refine (records_detach doc child n).trans (.trans ?_ (records_relist _ _ n (· ++ [child])))
  exact records_relocate fun _ => rfl

theorem records_placeAll (children : List NodeId) (doc : Document ℓ) (parent n : NodeId) :
    (doc.node n).Records byAttribute
      ((children.foldl (fun doc c => doc.place parent c) doc).node n) := by
  induction children generalizing doc with
  | nil => exact .refl _
  | cons c rest ih => exact (records_place doc parent c n).trans (ih _)

theorem records_emptyFragment (doc : Document ℓ) (id n : NodeId) :
    (doc.node n).Records byAttribute ((doc.emptyFragment id).node n) := by
  have first : (doc.node n).Records byAttribute ((doc.cleared id).node n) := by
    unfold cleared
    split
    · exact .refl _
    · exact records_relist doc id n fun _ => []
  refine first.trans (.of_content ?_)
  have after : (doc.emptyFragment id).node n = if n ∈ (doc.node id).children then
      { (doc.cleared id).node n with parent := none } else (doc.cleared id).node n :=
    node_loosened _ _ n
  rw [after]
  split <;> rfl

theorem records_append (doc : Document ℓ) (parent child n : NodeId) :
    (doc.node n).Records byAttribute ((doc.append parent child).node n) := by
  unfold Document.append
  split
  · exact .refl _
  · split
    · exact (records_emptyFragment doc child n).trans (records_placeAll _ _ parent n)
    · exact records_place doc parent child n

theorem content_release (doc : Document ℓ) (id n : NodeId) :
    ((doc.release id).node n).content = (doc.node n).content :=
  update_keeps (f := fun n => { n with parent := none, released := true }) Node.content
    (fun _ => rfl) n

theorem content_releaseAll (ids : List NodeId) (doc : Document ℓ) (n : NodeId) :
    ((doc.releaseAll ids).node n).content = (doc.node n).content := by
  induction ids generalizing doc with
  | nil => rfl
  | cons id rest ih => exact (ih (doc.release id)).trans (content_release doc id n)

/-- The flag is set after the children are dropped, and the steps before it leave the
flags alone. -/
theorem records_clearChildren (formed : doc.WellFormed) (id n : NodeId) :
    (doc.node n).Records byAttribute ((doc.clearChildren id).node n) := by
  rw [clearChildren_eq]
  split
  · exact .refl _
  · have shed := sheds formed id doc.free
    by_cases same : n = id
    · subst same
      rw [node_update]
      split
      · apply records_flagChildren shed.own
        let childless : Node ℓ → Node ℓ := fun n => { n with children := [] }
        have dropped := (Node.content_inj (content_releaseAll (doc.node n).children
          (doc.update n childless) n)).2.2
        exact dropped.trans (update_keeps (f := childless) Node.mutations (fun _ => rfl) n)
      · rename_i outside
        have outside := Nat.le_of_not_lt fun inside => outside ⟨rfl, inside⟩
        rw [node_of_outside outside, node_of_outside (shed.size ▸ outside)]
        exact .refl _
    · rw [node_update_of_ne same]
      exact .of_content (shed.content n same)

/-- A write flags what it changes of the node, and all flags are cleared by nobody. -/
def Move.RecordsAt (byAttribute : Prop) (n : NodeId) : Move ℓ → Prop
  | .write id f => id = n → ∀ m, Node.Records byAttribute m (f m)
  | .clearMutations => False
  | _ => True

theorem records_move (formed : doc.WellFormed) (inside : n < doc.size) (isHeld : held n = true)
    {m : Move ℓ} (records : m.RecordsAt byAttribute n) :
    (doc.node n).Records byAttribute ((m.apply held doc).node n) := by
  cases m with
  | alloc new =>
    -- The slot of a node that is held is not taken.
    refine .of_content ((allocates_alloc formed held new).content n ?_)
    rintro rfl
    obtain fresh | ⟨-, -, -, free⟩ := (allocates_alloc formed held new).slot
    · exact Nat.ne_of_lt inside fresh
    · cases isHeld.symm.trans free
  | append parent child => exact records_append doc parent child n
  | clear id => exact records_clearChildren formed id n
  | write id f => exact records_update records
  | clearMutations => cases records

theorem records_moveAll (formed : doc.WellFormed) (inside : n < doc.size) (isHeld : held n = true)
    {moves : List (Move ℓ)} (fits : FitAll held doc moves)
    (records : ∀ m ∈ moves, m.RecordsAt byAttribute n) :
    (doc.node n).Records byAttribute ((moveAll held doc moves).node n) := by
  induction moves generalizing doc with
  | nil => exact .refl _
  | cons m rest ih =>
    refine .trans (records_move formed inside isHeld (records m List.mem_cons_self)) ?_
    exact ih (formed.move fits.1) (Nat.lt_of_lt_of_le inside (formed.size_move m)) fits.2
      fun m member => records m (List.mem_cons_of_mem _ member)

/-- The move writes to no node and clears no flags. -/
def Move.Structural : Move ℓ → Prop
  | .write _ _ | .clearMutations => False
  | _ => True

theorem Move.Structural.recordsAt {m : Move ℓ} (structural : m.Structural) :
    m.RecordsAt byAttribute n := by
  cases m with
  | write id f => cases structural
  | clearMutations => cases structural
  | _ => trivial

theorem structural_adopt (held : NodeId → Bool) (doc : Document ℓ) (parent : NodeId)
    (new : Node ℓ) : ∀ m ∈ adoptMoves held doc parent new, m.Structural := by
  simp [adoptMoves, Move.Structural]

mutual

theorem structural_graft (held : NodeId → Bool) (parent : NodeId) :
    ∀ (markup : Markup) (doc : Document ℓ), ∀ m ∈ graftMoves held parent markup doc, m.Structural
  | .element _ _ children, doc, m, member => by
    rw [graftMoves] at member
    rcases List.mem_append.mp member with member | member
    · exact structural_adopt held doc parent _ m member
    · exact structural_graftAll held _ children _ m member
  | .text _, doc, m, member => structural_adopt held doc parent _ m member
  | .comment _, doc, m, member => structural_adopt held doc parent _ m member

theorem structural_graftAll (held : NodeId → Bool) (parent : NodeId) :
    ∀ (markup : List Markup) (doc : Document ℓ),
      ∀ m ∈ graftAllMoves held parent markup doc, m.Structural
  | [], _, _, member => nomatch member
  | first :: rest, doc, m, member => by
    rw [graftAllMoves] at member
    rcases List.mem_append.mp member with member | member
    · exact structural_graft held parent first doc m member
    · exact structural_graftAll held parent rest _ m member

end

theorem recordsAt_flagText (id : NodeId) :
    (Move.write id (flagText (ℓ := ℓ))).RecordsAt byAttribute n :=
  fun _ _ => ⟨fun clear => ⟨clear, .inl rfl⟩, nofun, fun clear => ⟨clear, rfl⟩,
    fun clear => ⟨clear, rfl⟩⟩

theorem recordsAt_data (doc : Document ℓ) (id : NodeId) (data : String) :
    ∀ m ∈ doc.dataMoves id data, m.RecordsAt byAttribute n := by
  intro m member
  unfold dataMoves at member
  split at member
  · cases member
  · rw [List.mem_singleton.mp member]
    exact fun _ _ => ⟨fun clear => ⟨clear, .inl rfl⟩, nofun, fun clear => ⟨clear, rfl⟩,
      fun clear => ⟨clear, rfl⟩⟩

theorem recordsAt_replace (held : NodeId → Bool) (doc : Document ℓ) (id : NodeId) (text : String) :
    ∀ m ∈ replaceMoves held doc id text, m.RecordsAt byAttribute n := by
  intro m member
  rcases List.mem_cons.mp member with rfl | member
  · trivial
  · rcases List.mem_append.mp member with member | member
    · split at member
      · cases member
      · exact (structural_adopt held _ id _ m member).recordsAt
    · rw [List.mem_singleton.mp member]
      exact recordsAt_flagText id

theorem recordsAt_text (held : NodeId → Bool) (doc : Document ℓ) (id : NodeId) (text : String) :
    ∀ m ∈ textMoves held doc id text, m.RecordsAt byAttribute n := by
  intro m member
  unfold textMoves at member
  split at member
  · exact recordsAt_data doc id text m member
  · split at member
    · split at member
      · cases member
      · exact recordsAt_replace held doc id text m member
    · split at member
      · rename_i child _
        split at member
        · cases member
        · rcases List.mem_append.mp member with member | member
          · exact recordsAt_data doc child text m member
          · rw [List.mem_singleton.mp member]
            exact recordsAt_flagText id
      · exact recordsAt_replace held doc id text m member

theorem recordsAt_html (held : NodeId → Bool) (doc : Document ℓ) (id : NodeId) (markup : String) :
    ∀ m ∈ htmlMoves held doc id markup, m.RecordsAt byAttribute n := by
  intro m member
  unfold htmlMoves at member
  split at member
  · cases member
  · rcases List.mem_cons.mp member with rfl | member
    · trivial
    · rcases List.mem_append.mp member with member | member
      · exact (structural_graftAll held id _ _ m member).recordsAt
      · rw [List.mem_singleton.mp member]
        exact fun _ _ => ⟨fun clear => ⟨clear, .inl rfl⟩, fun clear => ⟨clear, rfl⟩,
          fun clear => ⟨clear, rfl⟩, fun clear => ⟨clear, rfl⟩⟩

/-- Operations after which flags of the node may be gone. Markup is parsed into a document before
anybody has a reference to one of its nodes. -/
def Operation.TakesFlags (n : NodeId) : Operation ℓ → Prop
  | .takeMutations id => id = n
  | .clearMutations | .parse _ => True
  | _ => False

/-- The form value is written by way of the attribute of that name. -/
def Operation.WritesValue (n : NodeId) : Operation ℓ → Prop
  | .setAttribute id name _ => id = n ∧ name = "value"
  | _ => False

namespace State

variable {s : State ℓ}

theorem recordsAt_moves (s : State ℓ) {op : Operation ℓ} (kept : ¬ op.TakesFlags n) :
    ∀ m ∈ s.moves op, m.RecordsAt (op.WritesValue n) n := by
  intro m member
  cases op with
  | setText id text => exact recordsAt_text s.held s.doc id text m member
  | setHtml id markup => exact recordsAt_html s.held s.doc id markup m member
  | setAttribute id name value =>
    simp only [moves] at member
    split at member
    · cases member
    · rw [List.mem_singleton.mp member]
      refine fun here n => ⟨fun clear => ⟨clear, ?_⟩, fun clear => ⟨clear, rfl⟩,
        fun clear => Bool.noConfusion clear, fun clear => ⟨clear, rfl⟩⟩
      by_cases isValue : name = "value"
      · exact .inr ⟨⟨here, isValue⟩, rfl⟩
      · exact .inl (if_neg isValue)
  | setValue id value =>
    simp only [moves] at member
    split at member
    · cases member
    · rw [List.mem_singleton.mp member]
      exact fun _ n => ⟨fun clear => Bool.noConfusion clear, fun clear => ⟨clear, rfl⟩,
        fun clear => ⟨clear, rfl⟩, fun clear => ⟨clear, rfl⟩⟩
  | listen id event listener =>
    rw [List.mem_singleton.mp member]
    exact fun _ n => ⟨fun clear => ⟨clear, .inl rfl⟩, fun clear => ⟨clear, rfl⟩,
      fun clear => ⟨clear, rfl⟩, fun clear => ⟨clear, rfl⟩⟩
  | takeMutations id =>
    rw [List.mem_singleton.mp member]
    exact fun here => (kept here).elim
  | parse markup => exact (kept trivial).elim
  | clearMutations => exact (kept trivial).elim
  | hold id => cases member
  | drop id => cases member
  | _ =>
    rw [List.mem_singleton.mp member]
    trivial

theorem doc_run (s : State ℓ) (op : Operation ℓ) :
    (s.run op).doc = moveAll s.held s.doc (s.moves op) := by
  have moved : s.stepAll (s.steps op) =
      ({ s with doc := moveAll s.held s.doc (s.moves op) } : State ℓ).stepAll _ :=
    List.foldl_append.trans (congrArg (List.foldl step · _) (stepAll_moves s _))
  rw [← stepAll_steps s op, moved]
  cases op <;> rfl

/-- One operation on a node that is held. -/
theorem Good.records_run (good : s.Good) {op : Operation ℓ} (allowed : s.Allows op)
    (isHeld : n ∈ s.refs) (kept : ¬ op.TakesFlags n) :
    (s.doc.node n).Records (op.WritesValue n) ((s.run op).doc.node n) := by
  rw [doc_run]
  refine records_moveAll good.formed (good.inside n isHeld) ?_ (good.fitAll_moves allowed)
    (s.recordsAt_moves kept)
  simpa [held] using isHeld

/-- The operations of a run during which the node is held. -/
theorem Good.records_runAll (good : s.Good) {ops : List (Operation ℓ)} (allowed : s.AllowsAll ops)
    (isHeld : ∀ i ≤ ops.length, n ∈ ((ops.take i).foldl State.run s).refs)
    (kept : ∀ op ∈ ops, ¬ op.TakesFlags n) :
    (s.doc.node n).Records (∃ op ∈ ops, op.WritesValue n) ((ops.foldl State.run s).doc.node n) := by
  induction ops generalizing s with
  | nil => exact .refl _
  | cons op rest ih =>
    have first := good.records_run allowed.1 (isHeld 0 (Nat.zero_le _)) (kept op List.mem_cons_self)
    have later := ih (good.run allowed.1) allowed.2
      (fun i inside => isHeld (i + 1) (Nat.succ_le_succ inside))
      fun op member => kept op (List.mem_cons_of_mem _ member)
    exact (first.mono fun writes => ⟨op, List.mem_cons_self, writes⟩).trans
      (later.mono fun ⟨op, member, writes⟩ => ⟨op, List.mem_cons_of_mem _ member, writes⟩)

end State

open State

/-- Over a run in which a node is held and its flags are not taken, its text, attributes and
child list differ afterwards only if they are flagged, and so does its form value, unless the
attribute `value` was set, which is flagged as an attribute. Taking and clearing flags changes
nothing else. -/
theorem changes_recorded {s : State ℓ} (reachable : Reachable s) {ops : List (Operation ℓ)}
    (allowed : s.AllowsAll ops) {n : NodeId}
    (isHeld : ∀ i ≤ ops.length, n ∈ ((ops.take i).foldl run s).refs) :
    let before := s.doc.node n
    let after := (ops.foldl run s).doc.node n
    ((∀ op ∈ ops, ¬ op.TakesFlags n) →
      (after.value ≠ before.value → after.mutations.value = true ∨
        after.mutations.attributes = true ∧ ∃ text, .setAttribute n "value" text ∈ ops) ∧
      (after.data ≠ before.data → after.mutations.text = true) ∧
      (after.attributes ≠ before.attributes → after.mutations.attributes = true) ∧
      (after.children ≠ before.children → after.mutations.children = true)) ∧
    (∀ taken, (s.run (.takeMutations taken)).doc.node n =
      if n = taken then { before with mutations := {} } else before) ∧
    (s.run .clearMutations).doc.node n = { before with mutations := {} } := by
  intro before after
  have good := good_of_reachable reachable
  refine ⟨fun kept => ?_, fun taken => ?_, node_clearMutations s.doc n⟩
  · have records := good.records_runAll allowed isHeld kept
    refine ⟨fun differs => ?_, fun differs => ?_, fun differs => ?_, fun differs => ?_⟩
    · by_cases flagged : after.mutations.value = true
      · exact .inl flagged
      · obtain same | ⟨⟨op, member, writes⟩, attributes⟩ :=
          (records.value (Bool.eq_false_iff.mpr flagged)).2
        · exact (differs same).elim
        · cases op with
          | setAttribute id name text =>
            obtain ⟨rfl, rfl⟩ := writes
            exact .inr ⟨attributes, text, member⟩
          | _ => cases writes
    · exact (Bool.not_eq_false _).mp fun clear => differs (records.data clear).2
    · exact (Bool.not_eq_false _).mp fun clear => differs (records.attributes clear).2
    · exact (Bool.not_eq_false _).mp fun clear => differs (records.children clear).2
  · show (s.doc.update taken _).node n = _
    have inside := good.inside n (isHeld 0 (Nat.zero_le _))
    rw [node_update]
    by_cases here : n = taken
    · subst here
      rw [if_pos ⟨rfl, inside⟩, if_pos rfl]
    · rw [if_neg fun both => here both.1, if_neg here]

/-- An input that is held, to which somebody writes. -/
def entry : State Empty :=
  State.start.run (.createElement "INPUT")

def entryWrites : List (Operation Empty) :=
  [.setValue 1 "b", .createText "hint", .appendChild 1 2, .setAttribute 1 "class" "wide"]

theorem reachable_entry : Reachable entry :=
  .run .start (show State.start.Allows (.createElement "INPUT") from trivial)

theorem entry_recorded :
    Reachable entry ∧ entry.AllowsAll entryWrites ∧
    (∀ i ≤ entryWrites.length, 1 ∈ ((entryWrites.take i).foldl run entry).refs) ∧
    (∀ op ∈ entryWrites, ¬ op.TakesFlags 1) ∧
    ((entryWrites.foldl run entry).doc.node 1).children ≠ (entry.doc.node 1).children ∧
    ((entryWrites.foldl run entry).doc.node 1).mutations.children = true := by
  have allowed : entry.AllowsAll entryWrites := by decide +kernel
  have isHeld : ∀ i ≤ entryWrites.length, 1 ∈ ((entryWrites.take i).foldl run entry).refs := by
    decide +kernel
  have kept : ∀ op ∈ entryWrites, ¬ op.TakesFlags 1 := by simp [entryWrites, Operation.TakesFlags]
  have differs : ((entryWrites.foldl run entry).doc.node 1).children ≠
      (entry.doc.node 1).children := by
    decide +kernel
  have recorded := (changes_recorded reachable_entry allowed isHeld).1 kept
  exact ⟨reachable_entry, allowed, isHeld, kept, differs, recorded.2.2.2 differs⟩

/-- Setting the attribute `value` of an input changes its form value, and that is not flagged. -/
theorem value_attribute_unflagged :
    Reachable entry ∧ entry.Allows (.setAttribute 1 "value" "b") ∧ 1 ∈ entry.refs ∧
    1 ∈ (entry.run (.setAttribute 1 "value" "b")).refs ∧
    ((entry.run (.setAttribute 1 "value" "b")).doc.node 1).value ≠ (entry.doc.node 1).value ∧
    ((entry.run (.setAttribute 1 "value" "b")).doc.node 1).mutations.value = false :=
  ⟨reachable_entry, by decide +kernel, by decide +kernel, by decide +kernel, by decide +kernel,
    by decide +kernel⟩

end Document
end ReactiveView
