import ReactiveView.Proofs.Reaction.Writing
import ReactiveView.Proofs.Store.Snapshot

/-! Results of computed properties. Such a result has no cell, so its members are found by keys
alone, where the members of data are found by pointers. Both ways of walking a value come to the
same answers, as long as the keys spell indices the way pointers do: a result takes an index with a
plus sign or leading zeros as well, and data does not. -/
namespace ReactiveView

variable {κ : Type} {scope : Scope} {w : World κ} {s : Store (Computed κ)}
variable {path key : String} {keys : List String} {place : Handle} {v : Value}

/-- The place stands for a value, whatever its cell is: the value is detached, or it is
inside a leaf. -/
inductive Store.Denotes (s : Store (Computed κ)) : Handle → Value → Prop
  | detached (v : Value) : s.Denotes (.detached v) v
  | leaf {id : CellId} {whole v : Value} {pointer : String} : s.content id = .leaf whole →
      whole.pointer? pointer = some v → s.Denotes (.leaf id pointer) v

namespace Store.Denotes

theorem valueOf (denotes : s.Denotes place v) : s.valueOf place = v := by
  cases denotes with
  | detached => rfl
  | leaf content found => exact valueOf_leaf content found

theorem isNull (denotes : s.Denotes place v) : Scope.isNull s place = v.isNull := by
  have value := denotes.valueOf
  cases denotes with
  | detached => rfl
  | leaf content found => exact congrArg Value.isNull value

/-- A well spelt key finds the member that it names. -/
theorem find (denotes : s.Denotes place v) (spelt : v.isArray = true → ¬ Index.Misspelt key) :
    (v.step? key = none ∧ s.find place key = .missing) ∨
      ∃ u next, v.step? key = some u ∧ s.find place key = .inside next ∧ s.Denotes next u := by
  cases denotes with
  | detached =>
    simp only [Store.find, Value.member?_eq_step? spelt]
    cases v.step? key with
    | none => exact .inl ⟨rfl, rfl⟩
    | some u => exact .inr ⟨u, _, rfl, rfl, .detached u⟩
  | leaf content found =>
    have nested := pointer?_child ‹Value› ‹String› key
    rw [found, Option.bind_some] at nested
    rw [find_leaf content found]
    cases step : v.step? key with
    | none => exact .inl ⟨rfl, rfl⟩
    | some u => exact .inr ⟨u, _, rfl, rfl, .leaf content (nested.trans step)⟩

end Store.Denotes

namespace Scope

variable (perform : Performer κ) (here : Run.store scope.store w = some (.ok s, w))
  (denotes : s.Denotes place v)
include here denotes

/-- Reading a member of such a place registers nobody and runs no code. -/
theorem property?_denotes (spelt : v.isArray = true → ¬ Index.Misspelt key) :
    (v.step? key = none ∧ scope.property? perform place key w = some (.ok none, w)) ∨
      ∃ u next, v.step? key = some u ∧ s.Denotes next u ∧
        scope.property? perform place key w = some (.ok (some next), w) := by
  unfold Scope.property?
  rw [Run.bind_of_ok here]
  obtain ⟨none, missing⟩ | ⟨u, next, step, inside, further⟩ := denotes.find spelt
  · exact .inl ⟨none, by rw [missing]; rfl⟩
  · exact .inr ⟨u, next, step, further, by rw [inside]; rfl⟩

theorem walk_denotes (path : String) (spelt : ¬ v.Misspells keys) :
    (∃ e, v.follow path keys = .error e ∧
      scope.walk perform path keys place w = some (.error e, w)) ∨
    ∃ u last, v.follow path keys = .ok u ∧ s.Denotes last u ∧
      scope.walk perform path keys place w = some (.ok last, w) := by
  induction keys generalizing place v with
  | nil => exact .inr ⟨v, place, rfl, denotes, rfl⟩
  | cons key rest ih =>
    simp only [Value.Misspells, not_or, not_and, not_exists] at spelt
    obtain ⟨first, later⟩ := spelt
    unfold Scope.walk
    obtain ⟨none, missing⟩ | ⟨u, next, step, further, found⟩ :=
      property?_denotes perform here denotes first
    · refine .inl ⟨.unresolvedPath path key, by simp only [Value.follow, none], ?_⟩
      rw [Run.bind_of_ok missing]
      rfl
    · rw [Run.bind_of_ok found]
      simp only [Value.follow, step]
      exact ih further (later u step)

omit here denotes in
/-- A path whose first key comes to such a place reads as its further keys read in the value. -/
theorem resolve_through {w₀ : World κ} {s₀ : Store (Computed κ)} {name : String}
    (start : Run.store scope.store w₀ = some (.ok s₀, w₀))
    (first : scope.property? perform (.object s₀.root) name w₀ = some (.ok (some place), w))
    (here : Run.store scope.store w = some (.ok s, w)) (denotes : s.Denotes place v)
    (split : Path.segments path = .ok (name :: keys)) (more : keys ≠ [])
    (spelt : ¬ v.Misspells keys) :
    scope.resolve perform path w₀ = some (v.readKeys path keys, w) := by
  have way : (name :: keys).dropLast = name :: keys.dropLast := List.dropLast_cons_of_ne_nil more
  have last : (name :: keys).getLastD "" = keys.getLastD "" := by
    rw [List.getLastD_cons, List.getLastD_eq_getLast?, List.getLastD_eq_getLast?,
      List.getLast?_eq_some_getLast more]
    rfl
  have onWay : ¬ v.Misspells keys.dropLast := fun wrong =>
    spelt (Path.way_append_last more ▸ wrong.append [keys.getLastD ""])
  have begun : scope.walk perform path (name :: keys.dropLast) (.object s₀.root) w₀ =
      scope.walk perform path keys.dropLast place w := by
    rw [Scope.walk, Run.bind_of_ok first]
  have parent : scope.parentOf perform path w₀ =
      (scope.walk perform path keys.dropLast place >>= fun place =>
        pure (place, keys.getLastD "")) w := by
    unfold Scope.parentOf
    rw [Run.bind_of_ok (show Run.ofExcept (Path.segments path) w₀ =
      some (.ok _, w₀) by rw [split]; rfl), Run.bind_of_ok start, way, last]
    simp only [Bind.bind, Run.bind, begun]
  unfold Scope.resolve
  obtain ⟨e, failed, walked⟩ | ⟨u, last, reached, stands, walked⟩ :=
    walk_denotes perform here denotes path onWay
  · rw [Run.bind_of_error (parent.trans (Run.bind_of_error walked _))]
    simp only [Value.readKeys, bind, Except.bind, failed]
  · rw [Run.bind_of_ok (parent.trans (Run.bind_of_ok walked _)), Value.readKeys_of_follow reached]
    have spelt' : u.isArray = true → ¬ Index.Misspelt (keys.getLastD "") := by
      intro array misspelt
      rw [← Path.way_append_last more, Value.misspells_append (Value.follow_eq_ok reached),
        Value.misspells_singleton] at spelt
      exact spelt ⟨array, misspelt⟩
    dsimp only
    obtain ⟨none, missing⟩ | ⟨u', next, step, further, found⟩ :=
      property?_denotes perform here stands spelt'
    · rw [Run.bind_of_ok missing, none]
      show (Run.store scope.store >>= _) w = _
      rw [Run.bind_of_ok here, stands.isNull]
      dsimp only
      split <;> rfl
    · rw [Run.bind_of_ok found, step]
      show (Run.store scope.store >>= _) w = _
      rw [Run.bind_of_ok here, further.valueOf]
      rfl

end Scope

/-- A path behind a computed property reads in the result of its getter as it reads in the same
value stored as data, failures included, unless it misspells an index of an array in the value. -/
theorem computed_reads_as_data (perform : Performer κ) {a b : StoreId} {w₁ w' : World κ}
    {s t : Store (Computed κ)} {x y : CellId} {property : Computed κ} (here : w.stores[a]? = some s)
    (named : s.child? s.root "c" = some x) (computed : s.content x = .computed property)
    (result : (property.getter { store := a }).run perform w = some (.ok v, w₁))
    (there : w'.stores[b]? = some t) (named' : t.child? t.root "c" = some y)
    (data : t.content y = .leaf v) {q : String} (spelt : ¬ v.Misspells (Path.pieces q)) :
    ∃ r, Scope.resolve perform { store := a } ("c." ++ q) w = some (r, w₁) ∧
      Scope.resolve perform { store := b } ("c." ++ q) w' = some (r, w') := by
  have split : Path.segments ("c." ++ q) = .ok ("c" :: Path.pieces q) := by
    have notBlank : Path.isEmpty ("c." ++ q) = false := by
      simp [Path.isEmpty, String.toList_append, Text.isBlank]
    have keys : Path.pieces ("c." ++ q) = "c" :: Path.pieces q := Path.pieces_join "c" q
    simp only [Path.segments, notBlank, keys, Bool.false_eq_true, if_false]
  have more := Path.pieces_ne_nil q
  refine ⟨v.readKeys ("c." ++ q) (Path.pieces q), ?_, ?_⟩
  · have start : Run.store (Scope.mk a none).store w = some (.ok s, w) := Run.store_run here
    refine Scope.resolve_through perform start ?_ rfl (.detached v) split more spelt
    obtain ⟨fields, object, member⟩ := Store.object_of_child? named
    unfold Scope.property?
    rw [Run.bind_of_ok start]
    simp only [Store.find, object, member, computed]
    show ((property.getter { store := a }).run perform >>= _) w = _
    rw [Run.bind_of_ok result]
    rfl
  · have start : Run.store (Scope.mk b none).store w' = some (.ok t, w') := Run.store_run there
    refine Scope.resolve_through perform start ?_ start (.leaf data (Value.pointer?_empty v))
      split more spelt
    obtain ⟨fields, object, member⟩ := Store.object_of_child? named'
    unfold Scope.property?
    rw [Run.bind_of_ok start]
    simp only [Store.find, object, member, data]
    rw [Run.bind_of_ok (show (Scope.mk b none).register y w' = some (.ok (), w') from rfl),
      Run.bind_of_ok start, Store.handleOf, data]
    rfl

def series : Value :=
  .array [.string "ten", .string "twenty"]

/-- The same value as the result of a computed property in one store and as data in another. -/
def seriesWorld : World Empty :=
  { stores := #[(Store.ofValue (.object [])).defineComputed "c" { getter := fun _ => pure series },
      .ofValue (.object [("c", series)])] }

/-- User code may call the library, and nothing else is there to be commanded. -/
def seriesPerformer : Performer Empty :=
  performer (fun _ _ command => nomatch command) 1

theorem series_reads_as_data : ∃ r,
    Scope.resolve seriesPerformer { store := 0 } "c.1" seriesWorld = some (r, seriesWorld) ∧
    Scope.resolve seriesPerformer { store := 1 } "c.1" seriesWorld = some (r, seriesWorld) := by
  have spelt : ¬ series.Misspells (Path.pieces "1") := by
    have keys : Path.pieces "1" = ["1"] := by rfl
    rw [keys, Value.misspells_singleton]
    rintro ⟨-, i, -, none⟩
    cases none
  exact computed_reads_as_data seriesPerformer rfl rfl rfl rfl rfl rfl rfl spelt

/-- The result and the data are one value, and only the result takes an index with a
leading zero. -/
theorem misspelt_index_in_result :
    Scope.resolve seriesPerformer { store := 0 } "c" seriesWorld = some (.ok series, seriesWorld) ∧
    Scope.resolve seriesPerformer { store := 1 } "c" seriesWorld = some (.ok series, seriesWorld) ∧
    Scope.resolve seriesPerformer { store := 0 } "c.01" seriesWorld =
      some (.ok (.string "twenty"), seriesWorld) ∧
    Scope.resolve seriesPerformer { store := 1 } "c.01" seriesWorld =
      some (.ok .null, seriesWorld) :=
  ⟨rfl, rfl, rfl, rfl⟩

end ReactiveView
