import ReactiveView.Proofs.Store.Overwriting
import ReactiveView.Proofs.Value.Display

/-! Stores whose numbers are integers that binary64 numbers hold exactly. Whatever is read from such
a store is shown by its value alone, and writing such data keeps the store so. -/
namespace ReactiveView.Store

section Cells

variable {γ : Type}

def ExactCells (cells : Array (Cell γ)) : Prop :=
  ∀ id v, contentOf cells id = .leaf v → v.Exact

def Exact (s : Store γ) : Prop :=
  ExactCells s.cells

theorem ExactCells.push {cells : Array (Cell γ)} (exact : ExactCells cells) {c : Content γ}
    (leaf : ∀ v, c = .leaf v → v.Exact) : ExactCells (cells.push { content := c }) := by
  intro id v found
  rw [contentOf_push] at found
  split at found
  · exact leaf v found
  · exact exact id v found

mutual

theorem layOut_exact (cells : Array (Cell γ)) (exact : ExactCells cells) :
    ∀ v : Value, v.Exact → ExactCells (layOut cells v).2
  | .object fields, exact' => by
    simp only [layOut]
    exact (layOutFields_exact cells exact fields exact').push fun v same => by cases same
  | .null, exact' | .bool _, exact' | .number _, exact' | .string _, exact' | .array _, exact' => by
    simp only [layOut]
    refine exact.push fun v same => ?_
    obtain rfl := Content.leaf.inj same
    exact exact'

theorem layOutFields_exact (cells : Array (Cell γ)) (exact : ExactCells cells) :
    ∀ fields : List (String × Value), Value.ExactFields fields →
      ExactCells (layOutFields cells fields).2
  | [], _ => exact
  | (_, v) :: rest, exact' =>
    layOutFields_exact (layOut cells v).2 (layOut_exact cells exact v exact'.1) rest exact'.2

end

theorem exact_ofValue {data : Value} (exact : data.Exact) : (ofValue data : Store γ).Exact := by
  have none : ExactCells (#[] : Array (Cell γ)) := by
    intro id v found
    simp only [contentOf, Array.getElem?_empty, Option.map_none, Option.getD_none,
      Content.leaf.injEq] at found
    exact found ▸ trivial
  cases data with
  | object fields => exact layOut_exact #[] none (.object fields) exact
  | _ => exact layOut_exact #[] none (.object []) trivial

variable {s t : Store γ}

theorem SameData.exact (same : SameData s t) (exact : s.Exact) : t.Exact :=
  fun id v found => exact id v ((same.content id).symm.trans found)

theorem Overwrites.exact {c : CellId} {v : Value} (wrote : Overwrites s t c v) (exact : s.Exact)
    (exact' : v.Exact) : t.Exact := by
  intro id w found
  by_cases same : id = c
  · subst same
    obtain rfl := Content.leaf.inj (wrote.written.symm.trans found)
    exact exact'
  · exact exact id w ((wrote.others id same).symm.trans found)

/-- Keys lead from a cell to cells. -/
theorem follow_cell (plain : s.Plain) {path : String} {keys : List String} {place last : Handle}
    (cell : place.cell?.isSome) (reached : s.follow path keys place = .ok last) :
    last.cell?.isSome := by
  induction keys generalizing place with
  | nil => exact Except.ok.inj reached ▸ cell
  | cons key rest ih =>
    simp only [follow] at reached
    cases found : s.step? place key with
    | none => simp [found] at reached
    | some next =>
      simp only [found] at reached
      refine ih ?_ reached
      obtain ⟨_, _, child, -, -, -, -, rfl⟩ | ⟨-, own, -⟩ := step?_cases plain found
      · rw [cell?_handleOf]
        rfl
      · exact own ▸ cell

/-- The value of a cell, or of a place in it. -/
theorem Exact.valueOf (exact : s.Exact) {place : Handle} (cell : place.cell?.isSome) :
    (s.valueOf place).Legible := by
  have whole : ∀ id, (s.snapshotOf id).Legible := by
    intro id
    rw [snapshotOf]
    cases levels : s.cells.size <;> rw [snapshotTo] <;> cases content : s.content id
    all_goals first
      | exact .inl ⟨_, rfl⟩
      | exact .inr (exact id _ content)
      | exact .inr trivial
  cases place with
  | object id => exact whole id
  | leaf id pointer =>
    simp only [Store.valueOf]
    cases content : s.content id with
    | leaf v =>
      dsimp only
      cases found : v.pointer? pointer with
      | none => exact .inr trivial
      | some w =>
        obtain ⟨steps, -, there⟩ := Option.bind_eq_some_iff.mp found
        exact .inr ((exact id v content).at? there)
    | object keys => exact whole id
    | computed property => exact whole id
  | detached v => cases cell

end Cells

theorem Exact.read {κ : Type} {s : Store (Computed κ)} (exact : s.Exact) (plain : s.Plain)
    {path : String} {v : Value} (read : s.read path = .ok v) : v.Legible := by
  cases blank : Path.isEmpty path with
  | true => cases (read_blank blank).symm.trans read
  | false =>
    rw [read_eq blank] at read
    split at read
    · cases read
    · rename_i parent reached
      have cell := follow_cell plain rfl reached
      split at read
      · rename_i place found
        obtain rfl := Except.ok.inj read
        refine exact.valueOf ?_
        obtain ⟨_, _, child, -, -, -, -, rfl⟩ | ⟨-, own, -⟩ := step?_cases plain found
        · rw [cell?_handleOf]
          rfl
        · exact own ▸ cell
      · split at read
        · cases read
        · exact .inr (Except.ok.inj read ▸ trivial)

end ReactiveView.Store
