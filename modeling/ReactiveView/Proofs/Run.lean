import ReactiveView.View.Mount

/-! How runs compose: what an answer of a composed run says about its parts, relations between the
world before and after that every part keeps, and runs whose answers another run gives as well. -/
namespace ReactiveView.Run

variable {κ α β : Type}

theorem bind_of_ok {x : Run κ α} {w w₁ : World κ} {a : α} (ran : x w = some (.ok a, w₁))
    (f : α → Run κ β) : (x >>= f) w = f a w₁ := by
  simp only [Bind.bind, Run.bind, ran]

theorem bind_of_error {x : Run κ α} {w w₁ : World κ} {e : BindingError}
    (ran : x w = some (.error e, w₁)) (f : α → Run κ β) :
    (x >>= f) w = some (.error e, w₁) := by
  simp only [Bind.bind, Run.bind, ran]

theorem bind_of_none {x : Run κ α} {w : World κ} (ran : x w = none) (f : α → Run κ β) :
    (x >>= f) w = none := by
  simp only [Bind.bind, Run.bind, ran]

section Looking

variable {w : World κ} {d : DocumentId} {doc : Document (Listener κ)}

theorem view_run {v : ViewId} {view : View κ} (found : w.views[v]? = some view) :
    Run.view v w = some (.ok view, w) := by
  show some (Except.ok (w.views[v]?.getD _), w) = _
  rw [found]
  rfl

theorem store_run {id : StoreId} {s : Store (Computed κ)} (here : w.stores[id]? = some s) :
    Run.store id w = some (.ok s, w) := by
  show some (Except.ok (w.stores[id]?.getD _), w) = _
  rw [here]
  rfl

/-- Looking up an observer changes nothing, and it finds the observer that is there. -/
theorem observer_run (o : ObserverId) (w : World κ) : ∃ observer,
    Run.observer o w = some (.ok observer, w) ∧
      ∀ found, w.observers[o]? = some found → found = observer := by
  refine ⟨_, rfl, ?_⟩
  intro found there
  rw [there]
  rfl

theorem document_run (there : w.documents[d]? = some doc) :
    Run.document d w = some (.ok doc, w) := by
  show some (Except.ok (w.documents[d]?.getD _), w) = _
  rw [there]
  rfl

theorem node_run (there : w.documents[d]? = some doc) (n : NodeId) :
    Run.node ⟨d, n⟩ w = some (.ok (doc.node n), w) := by
  unfold Run.node
  rw [bind_of_ok (document_run there)]
  rfl

end Looking

/-- An answer of a composed run is a failure of its first part or an answer of its second part. -/
theorem bind_eq_some {x : Run κ α} {f : α → Run κ β} {w w' : World κ}
    {r : Except BindingError β} (ran : (x >>= f) w = some (r, w')) :
    (∃ e, x w = some (.error e, w') ∧ r = .error e) ∨
      ∃ a w₁, x w = some (.ok a, w₁) ∧ f a w₁ = some (r, w') := by
  simp only [Bind.bind, Run.bind] at ran
  cases first : x w with
  | none => simp [first] at ran
  | some answer =>
    obtain ⟨result, w₁⟩ := answer
    cases result with
    | error e =>
      simp only [first, Option.some.injEq, Prod.mk.injEq] at ran
      obtain ⟨rfl, rfl⟩ := ran
      exact .inl ⟨e, rfl, rfl⟩
    | ok a =>
      simp only [first] at ran
      exact .inr ⟨a, w₁, rfl, ran⟩

theorem bind_eq_ok {x : Run κ α} {f : α → Run κ β} {w w' : World κ} {b : β}
    (ran : (x >>= f) w = some (.ok b, w')) :
    ∃ a w₁, x w = some (.ok a, w₁) ∧ f a w₁ = some (.ok b, w') := by
  obtain ⟨e, -, wrong⟩ | answer := bind_eq_some ran
  · cases wrong
  · exact answer

theorem pinning_eq_some {pins : List Pin} {x : Run κ α} {w w' : World κ}
    {r : Except BindingError α} (ran : pinning pins x w = some (r, w')) :
    ∃ inner, x { w with pins := pins ++ w.pins } = some (r, inner) ∧
      w' = { inner with pins := w.pins } := by
  simp only [pinning, Option.map_eq_some_iff, Prod.exists, Prod.mk.injEq] at ran
  obtain ⟨_, inner, ran, rfl, rfl⟩ := ran
  exact ⟨inner, ran, rfl⟩

/-- A traversal that failed got as far as one item: those before it went well, and those behind it
were not reached. -/
theorem forM_eq_error {items : List α} {f : α → Run κ PUnit} {w w' : World κ} {e : BindingError}
    (ran : items.forM f w = some (.error e, w')) :
    ∃ before a after w₁, items = before ++ a :: after ∧
      before.forM f w = some (.ok ⟨⟩, w₁) ∧ f a w₁ = some (.error e, w') := by
  induction items generalizing w with
  | nil => cases ran
  | cons first rest ih =>
    obtain ⟨e', failed, same⟩ | ⟨u, w₁, done, further⟩ := bind_eq_some ran
    · cases same
      exact ⟨[], first, rest, w, rfl, rfl, failed⟩
    · obtain ⟨before, a, after, w₂, rfl, went, failed⟩ := ih further
      refine ⟨first :: before, a, after, w₂, rfl, ?_, failed⟩
      exact (bind_of_ok done _).trans went

/-- A relation between the world before and after that holds of doing nothing and composes. -/
structure Composes (R : World κ → World κ → Prop) : Prop where
  refl : ∀ w, R w w
  trans : ∀ {a b c}, R a b → R b c → R a c

/-- Whenever the run has an answer, a failure included, the worlds are related. -/
def Keeps (R : World κ → World κ → Prop) (x : Run κ α) : Prop :=
  ∀ w r w', x w = some (r, w') → R w w'

namespace Keeps

variable {R : World κ → World κ → Prop} (composes : Composes R)
include composes

theorem ofExcept (r : Except BindingError α) : Keeps R (Run.ofExcept r) := by
  intro w _ w' ran
  simp only [Run.ofExcept, Option.some.injEq, Prod.mk.injEq] at ran
  exact ran.2 ▸ composes.refl w

theorem pure (a : α) : Keeps R (Pure.pure a : Run κ α) :=
  ofExcept composes (.ok a)

theorem fail (e : BindingError) : Keeps R (Run.fail e : Run κ α) :=
  ofExcept composes (.error e)

omit composes in
theorem exhausted : Keeps R (Run.exhausted : Run κ α) := by
  intro _ _ _ ran
  cases ran

theorem world : Keeps R (Run.world : Run κ (World κ)) := by
  intro w _ w' ran
  simp only [Run.world, Option.some.injEq, Prod.mk.injEq] at ran
  exact ran.2 ▸ composes.refl w

theorem bind {x : Run κ α} {f : α → Run κ β} (first : Keeps R x) (then_ : ∀ a, Keeps R (f a)) :
    Keeps R (x >>= f) := by
  intro w r w' ran
  obtain ⟨e, failed, -⟩ | ⟨a, w₁, done, rest⟩ := bind_eq_some ran
  · exact first _ _ _ failed
  · exact composes.trans (first _ _ _ done) (then_ a _ _ _ rest)

theorem forM {items : List α} {f : α → Run κ PUnit} (each : ∀ a ∈ items, Keeps R (f a)) :
    Keeps R (items.forM f) := by
  induction items with
  | nil => exact pure composes _
  | cons a rest ih =>
    exact bind composes (each a List.mem_cons_self) fun _ =>
      ih fun b member => each b (List.mem_cons_of_mem _ member)

theorem mapM {items : List α} {f : α → Run κ β} (each : ∀ a ∈ items, Keeps R (f a)) :
    Keeps R (items.mapM f) := by
  induction items with
  | nil => exact pure composes _
  | cons a rest ih =>
    rw [List.mapM_cons]
    exact bind composes (each a List.mem_cons_self) fun _ =>
      bind composes (ih fun b member => each b (List.mem_cons_of_mem _ member)) fun _ =>
        pure composes _

theorem inspect (f : World κ → α) : Keeps R (do return f (← Run.world)) :=
  bind composes (world composes) fun _ => pure composes _

omit composes in
theorem modify {f : World κ → World κ} (each : ∀ w, R w (f w)) : Keeps R (Run.modify f) := by
  intro w _ w' ran
  simp only [Run.modify, Option.some.injEq, Prod.mk.injEq] at ran
  exact ran.2 ▸ each w

/-- User code keeps what its calls keep. -/
theorem program {perform : Performer κ} (calls : ∀ c, Keeps R (perform c)) (p : Program κ α) :
    Keeps R (p.run perform) := by
  induction p with
  | done r => exact ofExcept composes r
  | call c next ih =>
    intro w r w' ran
    simp only [Program.run] at ran
    cases first : perform c w with
    | none => simp [first] at ran
    | some answer =>
      simp only [first] at ran
      exact composes.trans (calls c _ _ _ first) (ih answer.1 _ _ _ ran)

end Keeps

/-- Every answer of `x` is the answer of `y`. -/
def Below (x y : Run κ α) : Prop :=
  ∀ w r, x w = some r → y w = some r

namespace Below

theorem refl (x : Run κ α) : Below x x :=
  fun _ _ ran => ran

theorem exhausted (x : Run κ α) : Below Run.exhausted x := by
  intro _ _ ran
  cases ran

theorem bind {x y : Run κ α} {f g : α → Run κ β} (first : Below x y)
    (then_ : ∀ a, Below (f a) (g a)) : Below (x >>= f) (y >>= g) := by
  rintro w ⟨r, w'⟩ ran
  obtain ⟨e, failed, rfl⟩ | ⟨a, w₁, done, rest⟩ := bind_eq_some ran
  · exact bind_of_error (first _ _ failed) g
  · rw [bind_of_ok (first _ _ done) g]
    exact then_ a _ _ rest

theorem attempt {x y : Run κ α} (inner : Below x y) : Below (Run.attempt x) (Run.attempt y) := by
  intro w r ran
  obtain ⟨answer, found, rfl⟩ := Option.map_eq_some_iff.mp ran
  exact Option.map_eq_some_iff.mpr ⟨answer, inner w answer found, rfl⟩

theorem forM {f g : α → Run κ PUnit} (each : ∀ a, Below (f a) (g a)) (items : List α) :
    Below (items.forM f) (items.forM g) := by
  induction items with
  | nil => exact refl _
  | cons a rest ih => exact bind (each a) fun _ => ih

theorem pinning {x y : Run κ α} (pins : List Pin) (inner : Below x y) :
    Below (Run.pinning pins x) (Run.pinning pins y) := by
  rintro w ⟨r, w'⟩ ran
  obtain ⟨after, answer, rfl⟩ := pinning_eq_some ran
  simp only [Run.pinning, inner _ _ answer, Option.map_some]

end Below
end ReactiveView.Run
