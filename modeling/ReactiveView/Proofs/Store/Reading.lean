import ReactiveView.Proofs.Run
import ReactiveView.Proofs.Store.Soundness

/-! Reading a store whose properties are all data. Such a read runs no code: its answer is
a function of the store, and its only effect is to register the tracking observer on the
cells it passes. -/
namespace ReactiveView

variable {κ : Type}

namespace Store

section Access

variable {γ : Type}

/-- No property is computed. -/
def Plain (s : Store γ) : Prop :=
  ∀ id property, s.content id ≠ .computed property

theorem findInLeaf_cases (s : Store γ) (id : CellId) (pointer key : String) :
    s.findInLeaf id pointer key = .missing ∨
      s.findInLeaf id pointer key = .inside (.leaf id (Pointer.child pointer key)) := by
  unfold findInLeaf
  split
  · split
    · exact .inr rfl
    · exact .inl rfl
  · exact .inl rfl

/-- What is found is a member of an object, which may be computed, or it has no cell of its own. -/
theorem find_cases (s : Store γ) (place : Handle) (key : String) :
    (∃ a c, place = .object a ∧ s.child? a key = some c ∧ (s.find place key = .cell c ∨
      ∃ property, s.content c = .computed property ∧ s.find place key = .computed c property)) ∨
    ((∀ a, place = .object a → s.child? a key = none) ∧ (s.find place key = .missing ∨
      ∃ next, s.find place key = .inside next ∧ ∀ b, next ≠ .object b)) := by
  have inLeaf : ∀ a pointer, s.findInLeaf a pointer key = .missing ∨
      ∃ next, s.findInLeaf a pointer key = .inside next ∧ ∀ b, next ≠ .object b := fun a pointer =>
    (findInLeaf_cases s a pointer key).imp_right fun inside =>
      ⟨.leaf a (Pointer.child pointer key), inside, nofun⟩
  cases place with
  | object a =>
    cases object : s.content a with
    | object keys =>
      cases member : keys.lookup key with
      | none => exact .inr ⟨by rintro _ ⟨⟩; simp only [child?, object, member],
          .inl (by simp only [find, object, member])⟩
      | some c =>
        refine .inl ⟨a, c, rfl, by simp only [child?, object, member], ?_⟩
        cases content : s.content c with
        | computed property =>
          exact .inr ⟨property, rfl, by simp only [find, object, member, content]⟩
        | object _ => exact .inl (by simp only [find, object, member, content])
        | leaf _ => exact .inl (by simp only [find, object, member, content])
    | leaf _ => exact .inr ⟨by rintro _ ⟨⟩; simp only [child?, object],
        by simpa only [find, object] using inLeaf a ""⟩
    | computed _ => exact .inr ⟨by rintro _ ⟨⟩; simp only [child?, object],
        by simpa only [find, object] using inLeaf a ""⟩
  | leaf a pointer => exact .inr ⟨nofun, inLeaf a pointer⟩
  | detached v =>
    refine .inr ⟨nofun, ?_⟩
    cases member : v.member? key with
    | none => exact .inl (by simp only [find, member])
    | some u => exact .inr ⟨.detached u, by simp only [find, member], nofun⟩

/-- A computed property is found at a member of an object. -/
theorem computed_of_find {s : Store γ} {place : Handle} {key : String} {c : CellId} {property : γ}
    (found : s.find place key = .computed c property) :
    s.content c = .computed property ∧ ∃ a, place = .object a ∧ s.child? a key = some c := by
  obtain ⟨a, _, same, member, cell | ⟨_, content, computed⟩⟩ | ⟨-, missing | ⟨_, inside, -⟩⟩ :=
    find_cases s place key
  · cases found.symm.trans cell
  · obtain ⟨rfl, rfl⟩ := Found.computed.inj (found.symm.trans computed)
    exact ⟨content, a, same, member⟩
  · cases found.symm.trans missing
  · cases found.symm.trans inside

/-- The place of a property, code left aside. -/
def step? (s : Store γ) (parent : Handle) (key : String) : Option Handle :=
  match s.find parent key with
  | .cell id => some (s.handleOf id)
  | .inside place => some place
  | .missing | .computed _ _ => none

/-- The cell of its own that reading a property comes to. -/
def passed? (s : Store γ) (parent : Handle) (key : String) : Option CellId :=
  match s.find parent key with
  | .cell id => some id
  | _ => none

/-- The cells that are read one after the other on the way along some keys. -/
def cellsOn (s : Store γ) : List String → Handle → List CellId
  | [], _ => []
  | key :: rest, place =>
    (s.passed? place key).toList ++ ((s.step? place key).map (s.cellsOn rest)).getD []

/-- Follows keys as far as they lead. -/
def follow (s : Store γ) (path : String) : List String → Handle → Except BindingError Handle
  | [], place => .ok place
  | key :: rest, place =>
    match s.step? place key with
    | none => .error (.unresolvedPath path key)
    | some next => s.follow path rest next

/-- Registers an observer, if there is one, on cells in order. -/
def track (tracker : Option ObserverId) (cells : List CellId) (s : Store γ) : Store γ :=
  match tracker with
  | none => s
  | some o => cells.foldl (fun s id => s.setRegistry id ((s.registry id).depend o).2) s

/-- The same data, whoever observes it. -/
structure SameData (s t : Store γ) : Prop where
  root : t.root = s.root
  size : t.cells.size = s.cells.size
  content : ∀ id, t.content id = s.content id

namespace SameData

variable {s t : Store γ}

theorem refl (s : Store γ) : SameData s s :=
  ⟨rfl, rfl, fun _ => rfl⟩

theorem setRegistry (s : Store γ) (id : CellId) (r : Registry) : SameData s (s.setRegistry id r) :=
  ⟨rfl, size_setRegistry s id r, fun other => content_setRegistry s id other r⟩

theorem trans {u : Store γ} (first : SameData s t) (second : SameData t u) : SameData s u :=
  ⟨second.root.trans first.root, second.size.trans first.size,
    fun id => (second.content id).trans (first.content id)⟩

theorem track (tracker : Option ObserverId) (cells : List CellId) (s : Store γ) :
    SameData s (s.track tracker cells) := by
  cases tracker with
  | none => exact refl s
  | some o =>
    simp only [Store.track]
    induction cells generalizing s with
    | nil => exact refl s
    | cons id rest ih => exact (setRegistry s id _).trans (ih _)

theorem plain (same : SameData s t) (plain : s.Plain) : t.Plain :=
  fun id property computed => plain id property ((same.content id).symm.trans computed)

theorem sound (same : SameData s t) (sound : s.Sound) : t.Sound := by
  obtain ⟨keys, object⟩ := sound.root_object
  refine ⟨by simpa [same.root, same.size] using sound.root_inside,
    ⟨keys, by rw [same.content, same.root, object]⟩, fun id keys found => ?_,
    fun id keys found member member_in inner inside => ?_⟩
  · simpa [same.root, same.size] using sound.members id keys ((same.content id).symm.trans found)
  · exact sound.nested id keys ((same.content id).symm.trans found) member member_in inner
      ((same.content _).symm.trans inside)

theorem descend? (same : SameData s t) (id : CellId) (keys : List String) :
    t.descend? id keys = s.descend? id keys := by
  induction keys generalizing id with
  | nil => rfl
  | cons key rest ih => simp only [Store.descend?, child?, same.content, ih]

theorem find (same : SameData s t) (parent : Handle) (key : String) :
    t.find parent key = s.find parent key := by
  cases parent <;> simp only [Store.find, findInLeaf, same.content]

theorem step? (same : SameData s t) (parent : Handle) (key : String) :
    t.step? parent key = s.step? parent key := by
  simp only [Store.step?, same.find, handleOf, same.content]

theorem passed? (same : SameData s t) (parent : Handle) (key : String) :
    t.passed? parent key = s.passed? parent key := by
  simp only [Store.passed?, same.find]

theorem follow (same : SameData s t) (path : String) (keys : List String) (place : Handle) :
    t.follow path keys place = s.follow path keys place := by
  induction keys generalizing place with
  | nil => rfl
  | cons key rest ih => simp only [Store.follow, same.step?, ih]

theorem cellsOn (same : SameData s t) (keys : List String) (place : Handle) :
    t.cellsOn keys place = s.cellsOn keys place := by
  induction keys generalizing place with
  | nil => rfl
  | cons key rest ih =>
    have later : t.cellsOn rest = s.cellsOn rest := funext ih
    simp only [Store.cellsOn, same.passed?, same.step?, later]

theorem snapshotTo (same : SameData s t) (levels : Nat) (id : CellId) :
    t.snapshotTo levels id = s.snapshotTo levels id := by
  induction levels generalizing id with
  | zero => rw [Store.snapshotTo, Store.snapshotTo, same.content]
  | succ levels ih =>
    have later : t.snapshotTo levels = s.snapshotTo levels := funext ih
    rw [Store.snapshotTo, Store.snapshotTo]
    simp only [same.content, later]

theorem valueOf (same : SameData s t) (place : Handle) : t.valueOf place = s.valueOf place := by
  cases place <;> simp only [Store.valueOf, snapshotOf, same.size, same.content, same.snapshotTo]

end SameData

@[simp] theorem track_nil (tracker : Option ObserverId) (s : Store γ) : s.track tracker [] = s := by
  cases tracker <;> rfl

theorem track_append (tracker : Option ObserverId) (first second : List CellId) (s : Store γ) :
    s.track tracker (first ++ second) = (s.track tracker first).track tracker second := by
  cases tracker with
  | none => rfl
  | some o => exact List.foldl_append

/-- Tracking registers the observer on the cells passed, once on each. -/
theorem registry_track (o : ObserverId) (cells : List CellId) (s : Store γ) (c : CellId) :
    (s.track (some o) cells).registry c =
      if c ∈ cells ∧ c < s.cells.size then ((s.registry c).depend o).2 else s.registry c := by
  simp only [track]
  induction cells generalizing s with
  | nil => simp
  | cons first rest ih =>
    rw [List.foldl_cons, ih, size_setRegistry, registry_setRegistry]
    by_cases same : c = first
    · subst same
      by_cases inside : c < s.cells.size <;> simp [inside, Registry.depend_depend]
    · simp [same]

theorem cellsOn_singleton (s : Store γ) (key : String) (place : Handle) :
    s.cellsOn [key] place = (s.passed? place key).toList := by
  simp only [cellsOn]
  cases s.step? place key <;> simp

theorem cellsOn_append (s : Store γ) (path : String) (first second : List String) (place : Handle) :
    s.cellsOn (first ++ second) place = s.cellsOn first place ++
      match s.follow path first place with
      | .ok next => s.cellsOn second next
      | .error _ => [] := by
  induction first generalizing place with
  | nil => rfl
  | cons key rest ih =>
    simp only [List.cons_append, cellsOn, follow]
    cases s.step? place key with
    | none => simp
    | some next => simp [ih]

end Access

/-- The value at a path, or why there is none. -/
def read (s : Store (Computed κ)) (path : String) : Except BindingError Value := do
  let keys ← Path.segments path
  let parent ← s.follow path keys.dropLast (.object s.root)
  match s.step? parent (keys.getLastD "") with
  | some place => return s.valueOf place
  | none =>
    if Scope.isNull s parent then .error (.unresolvedPath path (keys.getLastD "")) else return .null

/-- The cells that a path passes. -/
def cellsAt (s : Store (Computed κ)) (path : String) : List CellId :=
  s.cellsOn (Path.pieces path) (.object s.root)

theorem isNull_congr {s t : Store (Computed κ)} (same : SameData s t) (place : Handle) :
    Scope.isNull t place = Scope.isNull s place := by
  cases place <;> simp only [Scope.isNull, same.valueOf]

theorem SameData.read {s t : Store (Computed κ)} (same : SameData s t) (path : String) :
    t.read path = s.read path := by
  simp only [Store.read, same.root, same.follow, same.step?, same.valueOf, isNull_congr same]

theorem SameData.cellsAt {s t : Store (Computed κ)} (same : SameData s t) (path : String) :
    t.cellsAt path = s.cellsAt path := by
  simp only [Store.cellsAt, same.root, same.cellsOn]

end Store

namespace Path

theorem eq_pieces_of_segments {path : String} {keys : List String}
    (split : segments path = .ok keys) : keys = pieces path := by
  unfold segments at split
  split at split
  · cases split
  · exact (Except.ok.inj split).symm

theorem way_append_last {keys : List String} (some : keys ≠ []) :
    keys.dropLast ++ [keys.getLastD ""] = keys := by
  rw [List.getLastD_eq_getLast?, List.getLast?_eq_some_getLast some]
  exact List.dropLast_concat_getLast some

/-- The keys of a path are the way to the last property and its key. -/
theorem dropLast_append_getLastD (path : String) :
    (pieces path).dropLast ++ [(pieces path).getLastD ""] = pieces path :=
  way_append_last (pieces_ne_nil path)

/-- Text before a dot is parted from the text behind it. -/
theorem pieces_join (name q : String) : pieces (name ++ "." ++ q) = pieces name ++ pieces q := by
  have written : (name ++ "." ++ q).toList = name.toList ++ '.' :: q.toList := by
    simp [String.toList_append]
  have parts : Text.pieces (· == '.') (name.toList ++ '.' :: q.toList) =
      Text.pieces (· == '.') name.toList ++ Text.pieces (· == '.') q.toList :=
    Text.pieces_append rfl _ _
  simp only [pieces, written, parts, List.map_append]

end Path

namespace World

/-- The world with another store in a place. -/
def withStore (w : World κ) (id : StoreId) (s : Store (Computed κ)) : World κ :=
  { w with stores := w.stores.set! id s }

variable {w : World κ} {id : StoreId} {s : Store (Computed κ)}

theorem withStore_self (here : w.stores[id]? = some s) : w.withStore id s = w := by
  obtain ⟨inside, rfl⟩ := Array.getElem?_eq_some_iff.mp here
  simp [withStore, Array.setIfInBounds, inside]

theorem withStore_withStore (w : World κ) (id : StoreId) (s t : Store (Computed κ)) :
    (w.withStore id s).withStore id t = w.withStore id t := by
  simp [withStore]

theorem stores_withStore (here : w.stores[id]? = some s) (t : Store (Computed κ)) :
    (w.withStore id t).stores[id]? = some t := by
  obtain ⟨inside, -⟩ := Array.getElem?_eq_some_iff.mp here
  simp [withStore, inside]

theorem stores_withStore_of_ne {other : StoreId} (distinct : other ≠ id) (w : World κ)
    (t : Store (Computed κ)) : (w.withStore id t).stores[other]? = w.stores[other]? := by
  simp [withStore, distinct.symm]

end World

namespace Scope

open Store

variable (perform : Performer κ) {scope : Scope} {w : World κ} {s : Store (Computed κ)}

theorem run_setStore (id : StoreId) (s : Store (Computed κ)) (w : World κ) :
    Run.setStore id s w = some (.ok (), w.withStore id s) := rfl

theorem register_run (here : w.stores[scope.store]? = some s) (cell : CellId) :
    scope.register cell w =
      some (.ok (), w.withStore scope.store (s.track scope.tracker [cell])) := by
  unfold Scope.register
  cases scope.tracker with
  | none => exact congrArg (fun w => some (Except.ok (), w)) (World.withStore_self here).symm
  | some o =>
    show (Run.store scope.store >>= _) w = _
    rw [Run.bind_of_ok (Run.store_run here)]
    rfl

theorem property?_run (plain : s.Plain) (here : w.stores[scope.store]? = some s) (parent : Handle)
    (key : String) : scope.property? perform parent key w =
      some (.ok (s.step? parent key),
        w.withStore scope.store (s.track scope.tracker (s.passed? parent key).toList)) := by
  have unchanged : w.withStore scope.store (s.track scope.tracker []) = w := by
    rw [track_nil, World.withStore_self here]
  rw [Scope.property?, Run.bind_of_ok (Run.store_run here)]
  cases found : s.find parent key with
  | missing =>
    simp only [step?, passed?, found, Option.toList_none, unchanged]
    rfl
  | inside place =>
    simp only [step?, passed?, found, Option.toList_none, unchanged]
    rfl
  | cell id =>
    have same := SameData.track scope.tracker [id] s
    simp only [step?, passed?, found, Option.toList_some]
    rw [Run.bind_of_ok (register_run here id),
      Run.bind_of_ok (Run.store_run (World.stores_withStore here _))]
    simp only [handleOf, same.content]
    rfl
  | computed id property => exact (plain id property (computed_of_find found).1).elim

theorem walk_run (plain : s.Plain) (here : w.stores[scope.store]? = some s) (path : String)
    (keys : List String) (place : Handle) : scope.walk perform path keys place w =
      some (s.follow path keys place,
        w.withStore scope.store (s.track scope.tracker (s.cellsOn keys place))) := by
  induction keys generalizing place w s with
  | nil =>
    simp only [cellsOn, track_nil, World.withStore_self here]
    rfl
  | cons key rest ih =>
    rw [Scope.walk, Run.bind_of_ok (property?_run perform plain here place key)]
    have same := SameData.track scope.tracker (s.passed? place key).toList s
    have there := World.stores_withStore here (s.track scope.tracker (s.passed? place key).toList)
    cases next : s.step? place key with
    | none =>
      simp only [follow, cellsOn, next, Option.map_none, Option.getD_none, List.append_nil]
      rfl
    | some place' =>
      simp only [follow, cellsOn, next, Option.map_some, Option.getD_some]
      rw [ih (same.plain plain) there, same.follow, same.cellsOn, track_append,
        World.withStore_withStore]

theorem parentOf_run (plain : s.Plain) (here : w.stores[scope.store]? = some s) (path : String) :
    scope.parentOf perform path w = match Path.segments path with
      | .error e => some (.error e, w)
      | .ok keys => some ((s.follow path keys.dropLast (.object s.root)).map (·, keys.getLastD ""),
          w.withStore scope.store
            (s.track scope.tracker (s.cellsOn keys.dropLast (.object s.root)))) := by
  unfold Scope.parentOf
  cases split : Path.segments path with
  | error e => rfl
  | ok keys =>
    dsimp only
    rw [Run.bind_of_ok (show Run.ofExcept (.ok keys) w = some (.ok keys, w) from rfl),
      Run.bind_of_ok (Run.store_run here)]
    have walked := walk_run perform plain here path keys.dropLast (.object s.root)
    cases reached : s.follow path keys.dropLast (.object s.root) with
    | error e => rw [Run.bind_of_error (reached ▸ walked)]; rfl
    | ok place => rw [Run.bind_of_ok (reached ▸ walked)]; rfl

/-- Reading a path of a plain store answers with its value and registers on the cells it passes. -/
theorem resolve_run (plain : s.Plain) (here : w.stores[scope.store]? = some s) (path : String) :
    scope.resolve perform path w = match Path.segments path with
      | .error e => some (.error e, w)
      | .ok _ =>
        some (s.read path, w.withStore scope.store (s.track scope.tracker (s.cellsAt path))) := by
  have parent := parentOf_run perform plain here path
  unfold Scope.resolve Store.read Store.cellsAt
  cases split : Path.segments path with
  | error e =>
    simp only [split] at parent
    rw [Run.bind_of_error parent]
  | ok keys =>
    obtain rfl := Path.eq_pieces_of_segments split
    simp only [split] at parent
    rw [show s.cellsOn (Path.pieces path) (.object s.root) = _ from
      (congrArg (s.cellsOn · _) (Path.dropLast_append_getLastD path)).symm.trans
        (cellsOn_append s path _ _ _), track_append]
    have same := SameData.track scope.tracker
      (s.cellsOn (Path.pieces path).dropLast (.object s.root)) s
    have there := World.stores_withStore here
      (s.track scope.tracker (s.cellsOn (Path.pieces path).dropLast (.object s.root)))
    cases reached : s.follow path (Path.pieces path).dropLast (.object s.root) with
    | error e =>
      rw [Run.bind_of_error (reached ▸ parent)]
      simp only [bind, Except.bind, reached, track_nil]
    | ok place =>
      rw [Run.bind_of_ok (reached ▸ parent)]
      dsimp only
      rw [Run.bind_of_ok (property?_run perform (same.plain plain) there place _),
        World.withStore_withStore, same.passed?, same.step?, ← cellsOn_singleton]
      have now := World.stores_withStore here
        ((s.track scope.tracker (s.cellsOn (Path.pieces path).dropLast (.object s.root))).track
          scope.tracker (s.cellsOn [(Path.pieces path).getLastD ""] place))
      have still := same.trans (SameData.track scope.tracker
        (s.cellsOn [(Path.pieces path).getLastD ""] place) _)
      simp only [bind, Except.bind, reached]
      cases s.step? place ((Path.pieces path).getLastD "") with
      | some found =>
        show (Run.store scope.store >>= _) _ = _
        rw [Run.bind_of_ok (Run.store_run now), still.valueOf]
        rfl
      | none =>
        show (Run.store scope.store >>= _) _ = _
        rw [Run.bind_of_ok (Run.store_run now), isNull_congr still]
        split <;> rfl

/-- Reading without a tracker leaves the world alone. -/
theorem resolve_untracked (plain : s.Plain) {id : StoreId} (here : w.stores[id]? = some s)
    (path : String) : resolve perform { store := id } path w = some (s.read path, w) := by
  rw [resolve_run perform plain here]
  cases split : Path.segments path with
  | error e =>
    simp only [Store.read, split]
    rfl
  | ok keys => exact congrArg (fun w => some (_, w)) (World.withStore_self here)

/-- A value at a path is what reading the path without a tracker answers with. -/
theorem resolve_of_read (plain : s.Plain) {id : StoreId} (here : w.stores[id]? = some s)
    {path : String} {v : Value} (read : s.read path = .ok v) :
    resolve perform { store := id } path w = some (.ok v, w) := by
  rw [resolve_untracked perform plain here, read]

end Scope
end ReactiveView
