import ReactiveView.Proofs.Store.Reading

/-! Reading stores whose computed properties only read. Such a read is a function of the data of the
store as well: it has an answer and a list of the cells that it passes, those inside the getters
included, and its only effect is to register the tracking observer on these cells. Getters may read
each other, so the function goes as many levels deep as calls may be nested. -/
namespace ReactiveView

variable {κ : Type}

/-- Code that reads paths one after the other and ends with the first failure. -/
inductive Reader where
  | done (result : Except BindingError Value)
  | read (path : String) (next : Value → Reader)

def Reader.program (scope : Scope) : Reader → Program κ Value
  | .done result => .done result
  | .read path next => do
    let v ← Program.ask (.read (.scope scope) path)
    (next v).program scope

/-- The getter does nothing but read in the scope that it is given. -/
def Computed.ReadsOnly (property : Computed κ) : Prop :=
  ∃ reader : Reader, ∀ scope, property.getter scope = reader.program scope

/-- What reading comes to: an answer, and the cells that were passed. -/
structure Reading where
  answer : Except BindingError Value
  cells : List CellId

/-- What came of reading, with the cells that were passed before. -/
def Reading.after (cells : List CellId) (r : Reading) : Reading :=
  ⟨r.answer, cells ++ r.cells⟩

/-- What code that only reads comes to, given what each path comes to. -/
def Program.reading (reads : String → Option Reading) : Program κ Value → Option Reading
  | .done result => some ⟨result, []⟩
  | .call (.read _ path) next =>
    (reads path).bind fun first => ((next first.answer).reading reads).map (.after first.cells)
  | .call _ _ => none

namespace Store

variable (s : Store (Computed κ)) (id : StoreId)

/-- What following keys comes to, code included. -/
def readingFrom (reads : String → Option Reading) (path : String) :
    List String → Handle → Option Reading
  | [], place => some ⟨.ok (s.valueOf place), []⟩
  | key :: rest, place =>
    match s.find place key with
    | .missing =>
      some ⟨if rest = [] ∧ ¬ Scope.isNull s place then .ok .null
        else .error (.unresolvedPath path key), []⟩
    | .inside next => readingFrom reads path rest next
    | .cell c => (readingFrom reads path rest (s.handleOf c)).map (.after [c])
    | .computed c property =>
      ((property.getter { store := id }).reading reads).bind fun first =>
        match first.answer with
        | .error e => some ⟨.error e, c :: first.cells⟩
        | .ok v => (readingFrom reads path rest (.detached v)).map (.after (c :: first.cells))

/-- What a path comes to. -/
def readingOf (reads : String → Option Reading) (path : String) : Option Reading :=
  match Path.segments path with
  | .error e => some ⟨.error e, []⟩
  | .ok keys => s.readingFrom id reads path keys (.object s.root)

/-- What a path comes to where getters are nested to less than so many levels. -/
def reading : Nat → String → Option Reading
  | 0 => fun _ => none
  | levels + 1 => s.readingOf id (reading levels)

/-- The computed properties only read. -/
def ReadsOnly : Prop :=
  ∀ c property, s.content c = .computed property → property.ReadsOnly

end Store

section Levels

variable {reads reads' : String → Option Reading} {r r' : Reading} {path : String}

theorem Program.reading_mono (more : ∀ q r, reads q = some r → reads' q = some r)
    (p : Program κ Value) (came : p.reading reads = some r) : p.reading reads' = some r := by
  induction p generalizing r with
  | done result => exact came
  | call c next ih =>
    cases c with
    | read source q =>
      obtain ⟨first, read, rest⟩ := Option.bind_eq_some_iff.mp came
      obtain ⟨later, further, rfl⟩ := Option.map_eq_some_iff.mp rest
      simp only [reading, more q first read, Option.bind_some, ih first.answer further,
        Option.map_some]
    | _ => cases came

namespace Store

variable {s : Store (Computed κ)} {id : StoreId}

theorem readingFrom_mono (more : ∀ q r, reads q = some r → reads' q = some r) (keys : List String)
    {place : Handle} (came : s.readingFrom id reads path keys place = some r) :
    s.readingFrom id reads' path keys place = some r := by
  induction keys generalizing place r with
  | nil => exact came
  | cons key rest ih =>
    unfold readingFrom at came ⊢
    cases found : s.find place key with
    | missing => simpa only [found] using came
    | inside next =>
      simp only [found] at came
      exact ih came
    | cell c =>
      simp only [found] at came
      obtain ⟨later, further, rfl⟩ := Option.map_eq_some_iff.mp came
      simp only [ih further, Option.map_some]
    | computed c property =>
      simp only [found] at came
      obtain ⟨⟨answer, cells⟩, got, rest⟩ := Option.bind_eq_some_iff.mp came
      simp only [Program.reading_mono more _ got, Option.bind_some]
      cases answer with
      | error e => exact rest
      | ok v =>
        obtain ⟨later, further, rfl⟩ := Option.map_eq_some_iff.mp rest
        simp only [ih further, Option.map_some]

theorem readingOf_mono (more : ∀ q r, reads q = some r → reads' q = some r)
    (came : s.readingOf id reads path = some r) : s.readingOf id reads' path = some r := by
  unfold readingOf at came ⊢
  cases split : Path.segments path with
  | error e => simpa only [split] using came
  | ok keys =>
    simp only [split] at came
    exact readingFrom_mono more keys came

/-- What a path comes to does not depend on how many levels of getters there may be. -/
theorem reading_mono {levels more : Nat} (enough : levels ≤ more)
    (came : s.reading id levels path = some r) : s.reading id more path = some r := by
  induction levels generalizing path r more with
  | zero => cases came
  | succ levels ih =>
    obtain ⟨further, rfl⟩ := Nat.exists_eq_succ_of_ne_zero (Nat.ne_zero_of_lt enough)
    exact readingOf_mono (fun q r => ih (Nat.le_of_succ_le_succ enough)) came

theorem reading_unique {levels levels' : Nat} (came : s.reading id levels path = some r)
    (came' : s.reading id levels' path = some r') : r = r' :=
  Option.some.inj ((reading_mono (Nat.le_max_left levels levels') came).symm.trans
    (reading_mono (Nat.le_max_right levels levels') came'))

end Store
end Levels

namespace Scope

section

variable (perform : Performer κ) (scope : Scope) (path : String)

/-- Follows keys to a value. A missing last property reads as null, unless its parent is null. -/
def resolveFrom : List String → Handle → Run κ Value
  | [], place => do return (← Run.store scope.store).valueOf place
  | key :: rest, place => do
    match ← scope.property? perform place key with
    | some next => resolveFrom rest next
    | none =>
      if rest = [] ∧ ¬ isNull (← Run.store scope.store) place then return .null
      else Run.fail (.unresolvedPath path key)

/-- Going to the parent of the last property and reading that property is following all keys. -/
theorem walk_bind_last {keys : List String} (filled : keys ≠ []) (place : Handle) :
    (scope.walk perform path keys.dropLast place >>= fun parent => do
      match ← scope.property? perform parent (keys.getLastD "") with
      | some handle => return (← Run.store scope.store).valueOf handle
      | none =>
        if isNull (← Run.store scope.store) parent then
          Run.fail (.unresolvedPath path (keys.getLastD ""))
        else return .null) = resolveFrom perform scope path keys place := by
  induction keys generalizing place with
  | nil => exact (filled rfl).elim
  | cons key rest ih =>
    cases rest with
    | nil =>
      rw [List.dropLast_singleton, walk, pure_bind, resolveFrom]
      refine bind_congr fun found => ?_
      cases found with
      | some next => rfl
      | none =>
        refine bind_congr fun s => ?_
        cases isNull s place <;> rfl
    | cons second rest =>
      rw [List.dropLast_cons_cons, walk, bind_assoc, resolveFrom]
      refine bind_congr fun found => ?_
      cases found with
      | some next => exact ih (List.cons_ne_nil _ _) next
      | none => rfl

theorem resolve_eq_resolveFrom : scope.resolve perform path = (do
    let keys ← Run.ofExcept (Path.segments path)
    let s ← Run.store scope.store
    resolveFrom perform scope path keys (.object s.root)) := by
  unfold resolve parentOf
  cases split : Path.segments path with
  | error e => rfl
  | ok keys =>
    have filled : keys ≠ [] := Path.eq_pieces_of_segments split ▸ Path.pieces_ne_nil path
    have found : (Run.ofExcept (.ok keys) : Run κ (List String)) = pure keys := rfl
    simp only [found, bind_assoc, pure_bind]
    exact bind_congr fun s => walk_bind_last perform scope path filled (.object s.root)

end

end Scope

section Runs

variable {perform : Performer κ} {id : StoreId} {tracker : Option ObserverId}
variable {s t : Store (Computed κ)} {w : World κ} {reads : String → Option Reading}

/-- The answer, and the world with the tracking observer registered on the cells passed. -/
def Reading.result (id : StoreId) (tracker : Option ObserverId) (t : Store (Computed κ))
    (w : World κ) (r : Reading) : Except BindingError Value × World κ :=
  (r.answer, w.withStore id (t.track tracker r.cells))

theorem Reading.result_after (id : StoreId) (tracker : Option ObserverId) (t : Store (Computed κ))
    (w : World κ) (cells : List CellId) (r : Reading) : (r.after cells).result id tracker t w =
      r.result id tracker (t.track tracker cells) (w.withStore id (t.track tracker cells)) := by
  simp only [result, after, Store.track_append, World.withStore_withStore]

theorem Reading.result_nil (here : w.stores[id]? = some t) (answer : Except BindingError Value) :
    Reading.result id tracker t w ⟨answer, []⟩ = (answer, w) := by
  rw [result, Store.track_nil, World.withStore_self here]

/-- Reads of a store with this data are carried out as the function says, whoever
observes the data. -/
def Carries (perform : Performer κ) (id : StoreId) (tracker : Option ObserverId)
    (s : Store (Computed κ)) (reads : String → Option Reading) : Prop :=
  ∀ path w t, w.stores[id]? = some t → s.SameData t →
    perform (.read (.scope ⟨id, tracker⟩) path) w = (reads path).map (Reading.result id tracker t w)

/-- Code that only reads is run as the reads are carried out. -/
theorem Reader.run_program (carries : Carries perform id tracker s reads)
    (here : w.stores[id]? = some t) (same : s.SameData t) (reader : Reader) :
    (reader.program ⟨id, tracker⟩).run perform w =
      ((reader.program { store := id } : Program κ Value).reading reads).map
        (Reading.result id tracker t w) := by
  induction reader generalizing w t with
  | done result =>
    simp only [program, Program.reading, Option.map_some, Reading.result_nil here]
    rfl
  | read path next ih =>
    simp only [program, Program.ask, Bind.bind, Program.bind, Program.run, Program.reading,
      carries path w t here same]
    cases reads path with
    | none => rfl
    | some first =>
      obtain ⟨answer, cells⟩ := first
      have there := World.stores_withStore here (t.track tracker cells)
      have later : Reading.result id tracker t w ∘ Reading.after cells =
          Reading.result id tracker (t.track tracker cells)
            (w.withStore id (t.track tracker cells)) :=
        funext (Reading.result_after id tracker t w cells)
      simp only [Option.map_some, Option.bind_some, Option.map_map, later]
      cases answer with
      | error e =>
        simp only [Program.bind, Program.reading, Option.map_some, Reading.result_nil there]
        rfl
      | ok v => exact ih v there (same.trans (.track tracker cells t))

namespace Scope

open Store

/-- Following keys comes to what the data and the getters come to. -/
theorem resolveFrom_run (carries : Carries perform id tracker s reads) (only : s.ReadsOnly)
    (path : String) (keys : List String) (place : Handle) (here : w.stores[id]? = some t)
    (same : s.SameData t) : resolveFrom perform ⟨id, tracker⟩ path keys place w =
      (s.readingFrom id reads path keys place).map (Reading.result id tracker t w) := by
  induction keys generalizing place w t with
  | nil =>
    rw [resolveFrom, Run.bind_of_ok (Run.store_run here), same.valueOf]
    simp only [readingFrom, Option.map_some, Reading.result_nil here]
    rfl
  | cons key rest ih =>
    have there : ∀ cells, (w.withStore id (t.track tracker cells)).stores[id]? =
        some (t.track tracker cells) := fun _ => World.stores_withStore here _
    have still : ∀ cells, s.SameData (t.track tracker cells) := fun _ => same.trans (.track _ _ t)
    have passing : ∀ c, Scope.register ⟨id, tracker⟩ c w =
        some (.ok (), w.withStore id (t.track tracker [c])) := register_run here
    have further : ∀ cells next,
        resolveFrom perform ⟨id, tracker⟩ path rest next (w.withStore id (t.track tracker cells)) =
          ((s.readingFrom id reads path rest next).map (.after cells)).map
            (Reading.result id tracker t w) := by
      intro cells next
      rw [ih next (there cells) (still cells)]
      simp only [Option.map_map, Function.comp_def, Reading.result_after]
    rw [resolveFrom, property?, bind_assoc, Run.bind_of_ok (Run.store_run here), same.find,
      readingFrom]
    cases found : s.find place key with
    | missing =>
      show (Run.store id >>= fun t => if rest = [] ∧ ¬ isNull t place = true then _ else _) w = _
      rw [Run.bind_of_ok (Run.store_run here), isNull_congr same]
      simp only [Option.map_some, Reading.result_nil here]
      split <;> rfl
    | inside next => exact ih next here same
    | cell c =>
      show ((Scope.register ⟨id, tracker⟩ c >>= fun _ => _) >>= _) w = _
      rw [bind_assoc, Run.bind_of_ok (passing c)]
      show (Run.store id >>= fun t =>
        resolveFrom perform ⟨id, tracker⟩ path rest (t.handleOf c)) _ = _
      rw [Run.bind_of_ok (Run.store_run (there [c])), further]
      simp only [handleOf, (still [c]).content]
    | computed c property =>
      obtain ⟨reader, getter⟩ := only c property (computed_of_find found).1
      have ran := reader.run_program carries (there [c]) (still [c])
      show ((Scope.register ⟨id, tracker⟩ c >>= fun _ => _) >>= _) w = _
      rw [bind_assoc, Run.bind_of_ok (passing c)]
      simp only [bind_assoc, pure_bind, getter]
      cases came : (reader.program { store := id } : Program κ Value).reading reads with
      | none => exact Run.bind_of_none (by rw [ran, came]; rfl) _
      | some first =>
        obtain ⟨answer, cells⟩ := first
        rw [came, Option.map_some, ← Reading.result_after] at ran
        cases answer with
        | error e => exact Run.bind_of_error ran _
        | ok v => exact (Run.bind_of_ok ran _).trans (further (c :: cells) (.detached v))

/-- A path comes to what the data and the getters come to. -/
theorem resolve_reading (carries : Carries perform id tracker s reads) (only : s.ReadsOnly)
    (path : String) (here : w.stores[id]? = some t) (same : s.SameData t) :
    resolve perform ⟨id, tracker⟩ path w =
      (s.readingOf id reads path).map (Reading.result id tracker t w) := by
  rw [resolve_eq_resolveFrom, readingOf]
  cases Path.segments path with
  | error e =>
    simp only [Option.map_some, Reading.result_nil here]
    rfl
  | ok keys =>
    show (Run.store id >>= fun t =>
      resolveFrom perform ⟨id, tracker⟩ path keys (.object t.root)) w = _
    rw [Run.bind_of_ok (Run.store_run here), resolveFrom_run carries only path keys _ here same,
      same.root]

end Scope

/-- Reading a store whose computed properties only read is reading its data. -/
theorem performer_carries (host : Nat → Performer κ → κ → Run κ Unit) (only : s.ReadsOnly) :
    ∀ levels, Carries (performer host levels) id tracker s (s.reading id levels)
  | 0 => fun _ _ _ _ _ => rfl
  | levels + 1 => fun path _ _ here same =>
    Scope.resolve_reading (performer_carries host only levels) only path here same

theorem Scope.resolve_performer (host : Nat → Performer κ → κ → Run κ Unit) (only : s.ReadsOnly)
    (here : w.stores[id]? = some s) (levels : Nat) (path : String) :
    resolve (performer host levels) ⟨id, tracker⟩ path w =
      (s.reading id (levels + 1) path).map (Reading.result id tracker s w) :=
  resolve_reading (performer_carries host only levels) only path here (.refl s)

end Runs
end ReactiveView
