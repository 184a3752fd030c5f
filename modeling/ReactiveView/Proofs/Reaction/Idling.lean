import ReactiveView.Proofs.Reaction.Writing
import ReactiveView.Proofs.View.Rendering

/-! Idle effects. Such an effect may read, log and change documents, but it writes to no store,
changes no observer and starts no other effect. Which data it may meet is that of one world, one
store of which is being written. The effects of bindings on that store are idle, and so is code that
reads the store and does nothing else to it. -/
namespace ReactiveView

variable {κ : Type} {perform : Performer κ} {id : StoreId} {w w' w₁ w₂ : World κ}

open Run

/-- Views that are there stay with their stores. -/
def ViewsStay (w w' : World κ) : Prop :=
  ∀ (v : ViewId) view, w.views[v]? = some view →
    ∃ view', w'.views[v]? = some view' ∧ view'.store = view.store

theorem ViewsStay.refl (w : World κ) : ViewsStay w w :=
  fun _ view found => ⟨view, found, rfl⟩

theorem ViewsStay.trans (first : ViewsStay w w₁) (second : ViewsStay w₁ w₂) : ViewsStay w w₂ := by
  intro v view found
  obtain ⟨view₁, between, same⟩ := first v view found
  obtain ⟨view₂, after, same'⟩ := second v view₁ between
  exact ⟨view₂, after, same'.trans same⟩

/-- Stores keep their data, observers stay as they are, and no effect was started. -/
structure Leaves (w w' : World κ) : Prop where
  views : ViewsStay w w'
  stores : ∀ (id : StoreId) s, w.stores[id]? = some s → ∃ t, w'.stores[id]? = some t ∧ s.SameData t
  observers : ∀ (o : ObserverId) observer, w.observers[o]? = some observer →
    w'.observers[o]? = some observer
  journal : w'.journal = w.journal

theorem Leaves.of_eq (views : w'.views = w.views) (stores : w'.stores = w.stores)
    (observers : w'.observers = w.observers) (journal : w'.journal = w.journal) : Leaves w w' := by
  refine ⟨?_, ?_, ?_, journal⟩
  · intro v view found
    exact ⟨view, views ▸ found, rfl⟩
  · intro id s here
    exact ⟨s, stores ▸ here, .refl s⟩
  · intro o observer found
    exact observers ▸ found

theorem composes_leaves : Composes (Leaves (κ := κ)) where
  refl _ := .of_eq rfl rfl rfl rfl
  trans first second := by
    refine ⟨first.views.trans second.views, ?_, ?_, second.journal.trans first.journal⟩
    · intro id s here
      obtain ⟨t, there, same⟩ := first.stores id s here
      obtain ⟨u, after, same'⟩ := second.stores id t there
      exact ⟨u, after, same.trans same'⟩
    · intro o observer found
      exact second.observers o observer (first.observers o observer found)

/-- The same but for one store, which holds data only. -/
structure Beside (id : StoreId) (w w' : World κ) : Prop where
  views : ViewsStay w w'
  plain : ∃ s, w'.stores[id]? = some s ∧ s.Plain
  stores : ∀ other ≠ id, ∀ s, w.stores[other]? = some s →
    ∃ t, w'.stores[other]? = some t ∧ s.SameData t

theorem Beside.leaves (beside : Beside id w w₁) (leaves : Leaves w₁ w₂) : Beside id w w₂ := by
  obtain ⟨s, here, plain⟩ := beside.plain
  obtain ⟨t, there, same⟩ := leaves.stores id s here
  refine ⟨beside.views.trans leaves.views, ⟨t, there, same.plain plain⟩, ?_⟩
  intro other elsewhere u was
  obtain ⟨v, between, same⟩ := beside.stores other elsewhere u was
  obtain ⟨x, after, same'⟩ := leaves.stores other v between
  exact ⟨x, after, same.trans same'⟩

theorem Beside.congr (beside : Beside id w w₁) (views : w₂.views = w₁.views)
    (stores : w₂.stores = w₁.stores) : Beside id w w₂ := by
  refine ⟨?_, stores ▸ beside.plain, stores ▸ beside.stores⟩
  intro v view found
  rw [views]
  exact beside.views v view found

/-- Writing the store leaves everything beside it. -/
theorem Beside.withStore {s t : Store (Computed κ)} (here : w.stores[id]? = some s)
    (plain : t.Plain) :
    Beside id w (w.withStore id t) where
  views := .refl w
  plain := ⟨t, World.stores_withStore here t, plain⟩
  stores := fun _ elsewhere u was =>
    ⟨u, (World.stores_withStore_of_ne elsewhere w t).trans was, .refl u⟩

/-- Wherever one store of a world may have got to, a run leaves the world. -/
def Idles {α : Type} (id : StoreId) (w : World κ) (x : Run κ α) : Prop :=
  ∀ w₁ r w₂, Beside id w w₁ → x w₁ = some (r, w₂) → Leaves w₁ w₂

/-- The effect writes nothing while a store of the world is being written. -/
def Effect.Idle (perform : Performer κ) (id : StoreId) (w : World κ) (effect : Effect κ) : Prop :=
  ∀ new old, Idles id w (effect.fire perform new old)

/-- Worlds of some kind, and a relation that leads to worlds of the kind again. Pins, documents and
logs do not count. -/
structure Frames (P : World κ → Prop) (R : World κ → World κ → Prop) : Prop where
  composes : Composes R
  stays : ∀ {w w'}, P w → R w w' → P w'
  aside : ∀ {w w'}, w'.views = w.views → w'.stores = w.stores → w'.observers = w.observers →
    w'.journal = w.journal → R w w'

/-- From the worlds of a kind a run stays within a relation. -/
def Within {α : Type} (P : World κ → Prop) (R : World κ → World κ → Prop) (x : Run κ α) : Prop :=
  ∀ w r w', P w → x w = some (r, w') → R w w'

namespace Within

variable {α β : Type} {P : World κ → Prop} {R : World κ → World κ → Prop}

theorem keeps {x : Run κ α} (keeps : Keeps R x) : Within P R x :=
  fun _ _ _ _ ran => keeps _ _ _ ran

variable (frames : Frames P R)
include frames

theorem bind {x : Run κ α} {f : α → Run κ β} (first : Within P R x)
    (then_ : ∀ a, Within P R (f a)) :
    Within P R (x >>= f) := by
  intro w r w' kind ran
  obtain ⟨e, failed, -⟩ | ⟨a, between, done, rest⟩ := bind_eq_some ran
  · exact first _ _ _ kind failed
  · have went := first _ _ _ kind done
    exact frames.composes.trans went (then_ a _ _ _ (frames.stays kind went) rest)

theorem mapM {items : List α} {f : α → Run κ β} (each : ∀ a ∈ items, Within P R (f a)) :
    Within P R (items.mapM f) := by
  induction items with
  | nil => exact keeps (Keeps.pure frames.composes _)
  | cons a rest ih =>
    rw [List.mapM_cons]
    refine bind frames (each a List.mem_cons_self) fun b => ?_
    exact bind frames (ih fun c member => each c (List.mem_cons_of_mem _ member)) fun _ =>
      keeps (Keeps.pure frames.composes _)

theorem pinning {x : Run κ α} (pins : List Pin) (inner : Within P R x) :
    Within P R (Run.pinning pins x) := by
  intro w r w' kind ran
  obtain ⟨after, answer, rfl⟩ := pinning_eq_some ran
  have pinned : R w { w with pins := pins ++ w.pins } := frames.aside rfl rfl rfl rfl
  have went := inner _ _ _ (frames.stays kind pinned) answer
  exact frames.composes.trans pinned (frames.composes.trans went (frames.aside rfl rfl rfl rfl))

theorem whileAlive {x : Run κ Unit} (v : ViewId) (inner : Within P R x) :
    Within P R (Run.whileAlive v x) := by
  refine bind frames (keeps (Keeps.world frames.composes)) fun before => ?_
  split
  · exact pinning frames _ inner
  · exact keeps (Keeps.pure frames.composes _)

theorem edit (d : DocumentId)
    (f : (NodeId → Bool) → Document (Listener κ) → Document (Listener κ)) :
    Within P R (Run.edit d f) :=
  keeps (Keeps.modify fun _ => frames.aside rfl rfl rfl rfl)

end Within

/-- A view of the store. -/
def World.Shows (w : World κ) (id : StoreId) (v : ViewId) : Prop :=
  ∃ view, w.views[v]? = some view ∧ view.store = id

/-- A call that reads the store, the form value of a node, or nothing at all. -/
def Call.Quiet (id : StoreId) (w : World κ) : Call κ → Prop
  | .read (.scope s) _ => s.store = id
  | .read (.view v) _ => w.Shows id v
  | .formValue _ | .log _ => True
  | _ => False

/-- Code that makes quiet calls only. -/
def Program.Quiet {α : Type} (id : StoreId) (w : World κ) : Program κ α → Prop
  | .done _ => True
  | .call c next => c.Quiet id w ∧ ∀ a, (next a).Quiet id w

/-- Effects of bindings on the store, and quiet code. -/
def Effect.Quiet (id : StoreId) (w : World κ) : Effect κ → Prop
  | .formValue _ | .html _ | .text _ => True
  | .template view _ _ => w.Shows id view
  | .code run | .viewCode _ run => ∀ new old, (run new old).Quiet id w

section Quietly

variable {host : Nat → Performer κ → κ → Run κ Unit} {P : World κ → Prop}
variable {R : World κ → World κ → Prop} (frames : Frames P R)
variable (views : ∀ w', P w' → ViewsStay w w')
variable (reads : ∀ levels tracker path,
  Within P R (Scope.resolve (performer host levels) ⟨id, tracker⟩ path))
include frames views reads

omit frames reads in
/-- A view that is there is looked up with its store. -/
theorem Within.onView {α : Type} {v : ViewId} (shows : w.Shows id v) {f : View κ → Run κ α}
    (inner : ∀ view : View κ, view.store = id → Within P R (f view)) :
    Within P R (Run.view v >>= f) := by
  intro w₁ r w₂ kind ran
  obtain ⟨view, found, rfl⟩ := shows
  obtain ⟨view', there, same⟩ := views w₁ kind v view found
  rw [bind_of_ok (Run.view_run there)] at ran
  exact inner view' same w₁ r w₂ kind ran

theorem Call.Quiet.within {levels : Nat} {c : Call κ} (quiet : c.Quiet id w) :
    Within P R (performer host levels c) := by
  have composes := frames.composes
  cases levels with
  | zero => exact .keeps Keeps.exhausted
  | succ levels =>
    cases c with
    | read source path =>
      cases source with
      | scope s =>
        obtain rfl : s.store = id := quiet
        exact reads levels s.tracker path
      | view v =>
        refine Within.onView views quiet ?_
        rintro view rfl
        exact reads levels none path
    | formValue ref =>
      exact .bind frames (.keeps (.bind composes (Keeps.inspect composes _) fun _ =>
        Keeps.pure composes _)) fun _ => .keeps (Keeps.pure composes _)
    | log value =>
      exact .bind frames (.keeps (Keeps.modify fun _ => frames.aside rfl rfl rfl rfl)) fun _ =>
        .keeps (Keeps.pure composes _)
    | _ => cases quiet

theorem Program.Quiet.within {α : Type} {levels : Nat} {p : Program κ α} (quiet : p.Quiet id w) :
    Within P R (p.run (performer host levels)) := by
  induction p with
  | done r => exact .keeps (Keeps.ofExcept frames.composes r)
  | call c next ih =>
    intro w₁ r w₂ kind ran
    simp only [run] at ran
    cases first : performer host levels c w₁ with
    | none => simp [first] at ran
    | some answer =>
      simp only [first] at ran
      have went := quiet.1.within frames views reads _ _ _ kind first
      exact frames.composes.trans went (ih answer.1 (quiet.2 _) _ _ _ (frames.stays kind went) ran)

theorem Effect.Quiet.within {levels : Nat} {effect : Effect κ} (quiet : effect.Quiet id w)
    (new old : Value) : Within P R (effect.fire (performer host levels) new old) := by
  have composes := frames.composes
  cases effect with
  | formValue target =>
    exact .edit frames target.document fun _ doc => doc.setValue target.node new.propertyText
  | html target =>
    exact .edit frames target.document fun held doc =>
      doc.setInnerHtml held target.node new.propertyText
  | text target =>
    exact .edit frames target.document fun held doc =>
      doc.setTextContent held target.node new.propertyText
  | code run => exact (quiet new old).within frames views reads
  | viewCode view run => exact .whileAlive frames view ((quiet new old).within frames views reads)
  | template view target pieces =>
    refine .whileAlive frames view (Within.onView views quiet ?_)
    rintro view rfl
    refine .bind frames (.bind frames (.mapM frames fun piece _ => ?_) fun _ =>
      .keeps (Keeps.pure composes _)) fun text =>
      .edit frames target.document fun held doc => doc.setTextContent held target.node text
    cases piece with
    | literal c => exact .keeps (Keeps.pure composes _)
    | slot path =>
      exact .bind frames (reads levels none path) fun _ => .keeps (Keeps.pure composes _)

end Quietly

/-- Reading the store registers observers at most. -/
theorem resolve_idles (tracker : Option ObserverId) (path : String) :
    Idles id w (Scope.resolve perform ⟨id, tracker⟩ path) := by
  intro w₁ r w₂ beside ran
  obtain ⟨s, here, plain⟩ := beside.plain
  rw [Scope.resolve_run perform plain (by exact here)] at ran
  split at ran
  · obtain ⟨-, rfl⟩ := Prod.mk.inj (Option.some.inj ran)
    exact composes_leaves.refl w₁
  · obtain ⟨-, rfl⟩ := Prod.mk.inj (Option.some.inj ran)
    refine ⟨.refl _, ?_, fun _ _ found => found, rfl⟩
    intro other u was
    by_cases at_ : other = id
    · subst at_
      obtain rfl := Option.some.inj (here.symm.trans was)
      exact ⟨_, World.stores_withStore here _, .track tracker (s.cellsAt path) s⟩
    · exact ⟨u, (World.stores_withStore_of_ne at_ w₁ _).trans was, .refl u⟩

theorem frames_beside : Frames (Beside id w) Leaves :=
  ⟨composes_leaves, Beside.leaves, .of_eq⟩

theorem Effect.Quiet.idle {host : Nat → Performer κ → κ → Run κ Unit} {levels : Nat}
    {effect : Effect κ} (quiet : effect.Quiet id w) : effect.Idle (performer host levels) id w := by
  intro new old
  refine quiet.within frames_beside (fun _ beside => beside.views) ?_ new old
  intro levels tracker path
  exact resolve_idles tracker path

end ReactiveView
