import ReactiveView.Proofs.Store.Exactness
import ReactiveView.Proofs.Template.Segments

/-! Rendering templates from plain stores. The text of a template is a function of the store, and it
depends on the data only through what is shown of the values at the paths of its slots. -/
namespace ReactiveView

variable {κ : Type} {s t : Store (Computed κ)}

/-- A text without a slot is a template of its characters. -/
theorem Template.scan_of_noSlot (s : List Char) (none : Template.paths (Template.scan s) = []) :
    Template.scan s = s.map .literal := by
  obtain ⟨parts, last, split, scanned⟩ := splits_scan s
  rw [scanned, paths_pieces, List.map_eq_nil_iff] at none
  subst none
  rw [scanned, split.whole]
  rfl

namespace Store

/-- The text of a template, or why it has none. -/
def render (s : Store (Computed κ)) (template : List Piece) : Except BindingError String :=
  Template.render s.read template

/-- The text that one piece comes to. -/
def pieceText (s : Store (Computed κ)) : Piece → Except BindingError String
  | .literal c => pure (String.singleton c)
  | .slot path => do return (← s.read path).display

theorem render_eq (s : Store (Computed κ)) (template : List Piece) :
    s.render template = String.join <$> template.mapM s.pieceText := by
  have pieces : s.pieceText = Template.shown s.read := by
    funext piece
    cases piece <;> rfl
  rw [render, Template.render_eq_join, pieces]

/-- A text without a slot comes to itself. -/
theorem render_of_noSlot (s : Store (Computed κ)) {text : String}
    (none : Template.hasSlot (Template.ofString text) = false) :
    s.render (Template.ofString text) = .ok text := by
  have noPaths : Template.paths (Template.ofString text) = [] := by
    simpa [Template.hasSlot] using none
  have literal : Template.ofString text = text.toList.map .literal :=
    Template.scan_of_noSlot _ noPaths
  rw [render, literal, Template.render_literal, String.ofList_toList]
  rfl

/-- Paths whose values are shown alike give the same text. -/
theorem mapM_pieceText_congr {template : List Piece} {parts : List String}
    (rendered : template.mapM s.pieceText = .ok parts)
    (alike : ∀ path ∈ Template.paths template, ∀ v, s.read path = .ok v →
      ∃ u, t.read path = .ok u ∧ Value.Alike v u) :
    template.mapM t.pieceText = .ok parts := by
  induction template generalizing parts with
  | nil => exact rendered
  | cons piece rest ih =>
    rw [List.mapM_cons] at rendered ⊢
    cases first : s.pieceText piece with
    | error e => simp [first, bind, Except.bind] at rendered
    | ok text =>
      cases others : rest.mapM s.pieceText with
      | error e => simp [first, others, bind, Except.bind] at rendered
      | ok texts =>
        have later : rest.mapM t.pieceText = .ok texts := by
          refine ih others fun path member => alike path ?_
          cases piece <;> simp_all [Template.paths, Template.Piece.path?]
        have now : t.pieceText piece = .ok text := by
          cases piece with
          | literal c => exact first
          | slot path =>
            cases read : s.read path with
            | error e => simp [pieceText, read, bind, Except.bind] at first
            | ok v =>
              obtain ⟨u, read', same⟩ :=
                alike path (by simp [Template.paths, Template.Piece.path?]) v read
              simp only [pieceText, read, bind, Except.bind] at first
              simp only [pieceText, read', bind, Except.bind, ← same.display]
              exact first
        rw [now, later]
        rw [first, others] at rendered
        exact rendered

theorem render_congr {template : List Piece} {text : String}
    (rendered : s.render template = .ok text)
    (alike : ∀ path ∈ Template.paths template, ∀ v, s.read path = .ok v →
      ∃ u, t.read path = .ok u ∧ Value.Alike v u) : t.render template = .ok text := by
  rw [render_eq] at rendered ⊢
  cases parts : template.mapM s.pieceText with
  | error e => simp [parts] at rendered
  | ok texts =>
    rw [mapM_pieceText_congr parts alike]
    rw [parts] at rendered
    exact rendered

theorem SameData.render (same : SameData s t) (template : List Piece) :
    t.render template = s.render template := by
  have read : t.read = s.read := funext same.read
  simp only [Store.render, read]

end Store

/-- A run over a list whose items leave the world alone. -/
theorem Run.mapM_still {α β : Type} {f : α → Run κ β} {g : α → Except BindingError β} {w : World κ}
    (each : ∀ a, f a w = some (g a, w)) (items : List α) :
    items.mapM f w = some (items.mapM g, w) := by
  induction items with
  | nil => rfl
  | cons a rest ih =>
    simp only [List.mapM_cons]
    cases first : g a with
    | error e => exact Run.bind_of_error ((each a).trans (by rw [first])) _
    | ok b =>
      rw [Run.bind_of_ok ((each a).trans (by rw [first]))]
      cases others : rest.mapM g with
      | error e => exact Run.bind_of_error (ih.trans (by rw [others])) _
      | ok bs => exact Run.bind_of_ok (ih.trans (by rw [others])) _

theorem Template.render_still {lookup : String → Run κ Value} {w : World κ}
    (each : ∀ path, lookup path w = some (s.read path, w)) (template : List Piece) :
    Template.render lookup template w = some (s.render template, w) := by
  have pieces : ∀ piece : Piece, (match piece with
      | .literal c => pure (String.singleton c)
      | .slot path => do return (← lookup path).display : Run κ String) w =
        some (s.pieceText piece, w) := by
    intro piece
    cases piece with
    | literal c => rfl
    | slot path =>
      cases read : s.read path with
      | error e =>
        simp only [Store.pieceText, read]
        exact Run.bind_of_error ((each path).trans (by rw [read])) _
      | ok v =>
        simp only [Store.pieceText, read]
        exact Run.bind_of_ok ((each path).trans (by rw [read])) _
  have joined := Run.mapM_still pieces template
  unfold Template.render
  rw [Store.render_eq]
  cases parts : template.mapM s.pieceText with
  | error e => exact Run.bind_of_error (joined.trans (by rw [parts])) _
  | ok texts => exact Run.bind_of_ok (joined.trans (by rw [parts])) _

variable (perform : Performer κ) {id : StoreId} {w : World κ}

theorem renderFrom_run (plain : s.Plain) (here : w.stores[id]? = some s) (template : List Piece) :
    renderFrom perform id template w = some (s.render template, w) :=
  Template.render_still (Scope.resolve_untracked perform plain here) template

end ReactiveView
