import ReactiveView.Proofs.Store.Reading
import ReactiveView.Proofs.Value.Equality
import ReactiveView.Proofs.Value.Fields

/-! Plain data under paths. Reading a path and writing one are given here for a value alone, without
cells, as the measure of what a store does. A write reads back as the value written, except where
an index is spelt as only a write takes it. -/
namespace ReactiveView

namespace Index

/-- The key names an index, though not in the spelling that pointers take. -/
def Misspelt (key : String) : Prop :=
  ∃ i, parse? key = some i ∧ canonical? key = none

theorem parse?_of_canonical? {key : String} {i : Nat} (read : canonical? key = some i) :
    parse? key = some i := by
  unfold canonical? at read
  unfold parse?
  split at read
  · cases read
  · split
    · rename_i signed
      simp [digits?, signed] at read
    · exact read

theorem canonical?_eq_parse? {key : String} (spelt : ¬ Misspelt key) :
    canonical? key = parse? key := by
  cases read : canonical? key with
  | some i => exact (parse?_of_canonical? read).symm
  | none =>
    cases parsed : parse? key with
    | none => rfl
    | some i => exact (spelt ⟨i, parsed, read⟩).elim

end Index

namespace Value

variable {v w old data data' : Value} {key path : String} {keys : List String}

def isArray : Value → Bool
  | .array _ => true
  | _ => false

theorem at?_append (v : Value) (before after : List String) :
    v.at? (before ++ after) = (v.at? before).bind (at? after) := by
  induction before generalizing v with
  | nil => rfl
  | cons key rest ih =>
    simp only [List.cons_append, at?]
    cases v.step? key with
    | none => rfl
    | some inner => exact ih inner

theorem at?_singleton (v : Value) (key : String) : v.at? [key] = v.step? key := by
  rw [at?]
  cases v.step? key <;> rfl

theorem putAt_append {before : List String} (found : v.at? before = some w) (after : List String)
    (u : Value) : v.putAt (before ++ after) u = v.putAt before (w.putAt after u) := by
  induction before generalizing v with
  | nil =>
    obtain rfl := Option.some.inj found
    rfl
  | cons key rest ih =>
    obtain ⟨inner, step, further⟩ := Option.bind_eq_some_iff.mp found
    simp only [List.cons_append, putAt, step, ih further]

theorem putAt_singleton (found : v.step? key = some old) (w : Value) :
    v.putAt [key] w = v.putStep key w := by
  simp only [putAt, found]

theorem step?_putStep (found : v.step? key = some old) (w : Value) :
    (v.putStep key w).step? key = some w := by
  cases v with
  | object fields => exact Entries.lookup_set_self key w fields
  | array items =>
    obtain ⟨i, read, member⟩ := Option.bind_eq_some_iff.mp found
    obtain ⟨inside, -⟩ := List.getElem?_eq_some_iff.mp member
    simp only [putStep, read, step?, Option.bind_some]
    exact List.getElem?_set_self inside
  | _ => cases found

theorem at?_putAt (found : v.at? keys = some old) (w : Value) :
    (v.putAt keys w).at? keys = some w := by
  induction keys generalizing v with
  | nil => rfl
  | cons key rest ih =>
    obtain ⟨inner, step, further⟩ := Option.bind_eq_some_iff.mp found
    simp only [putAt, step, at?, step?_putStep step, Option.bind_some]
    exact ih further

/-- A key that is not misspelt names one member, however it is read. -/
theorem member?_eq_step? (spelt : v.isArray = true → ¬ Index.Misspelt key) :
    v.member? key = v.step? key := by
  cases v with
  | array items => simp only [member?, step?, Index.canonical?_eq_parse? (spelt rfl)]
  | _ => rfl

theorem step?_misspelt (array : v.isArray = true) (misspelt : Index.Misspelt key) :
    v.step? key = none := by
  obtain ⟨i, -, none⟩ := misspelt
  cases v with
  | array items => simp only [step?, none, Option.bind_none]
  | _ => cases array

/-- What a write of a member comes to. Nothing is there to be written, an equal member is kept, or
the member is the new value afterwards. -/
theorem setMember_cases (v : Value) (key : String) (w : Value) :
    v.setMember key w = (.missing, v) ∨
    (v.setMember key w = (.unchanged, v) ∧
      ∃ current, v.member? key = some current ∧ current.strictEq w = true) ∨
    ∃ changed, v.setMember key w = (.silent, changed) ∧ changed.member? key = some w ∧
      changed.isArray = v.isArray := by
  cases v with
  | object fields =>
    refine .inr ?_
    simp only [setMember]
    cases found : fields.lookup key with
    | none => exact .inr ⟨_, rfl, Fields.lookup_insert_self key w fields, rfl⟩
    | some current =>
      dsimp only
      split
      · rename_i same
        exact .inl ⟨rfl, current, found, (Bool.and_eq_true_iff.mp same).2⟩
      · exact .inr ⟨_, rfl, Entries.lookup_set_self key w fields, rfl⟩
  | array items =>
    simp only [setMember]
    cases parsed : Index.parse? key with
    | none => exact .inl rfl
    | some i =>
      dsimp only
      cases found : items[i]? with
      | none => exact .inl rfl
      | some current =>
        refine .inr ?_
        dsimp only
        split
        · rename_i same
          exact .inl ⟨rfl, current, by simp [member?, parsed, found],
            (Bool.and_eq_true_iff.mp same).2⟩
        · obtain ⟨inside, -⟩ := List.getElem?_eq_some_iff.mp found
          refine .inr ⟨_, rfl, ?_, rfl⟩
          simp only [member?, parsed, Option.bind_some]
          exact List.getElem?_set_self inside
  | _ => exact .inl rfl

/-- Follows keys as far as they lead. -/
def follow (path : String) : List String → Value → Except BindingError Value
  | [], v => .ok v
  | key :: rest, v =>
    match v.step? key with
    | none => .error (.unresolvedPath path key)
    | some inner => inner.follow path rest

/-- The value at the end of some keys, which are the last of a path. A missing last member reads as
null, unless it is missing in null. -/
def readKeys (path : String) (keys : List String) (v : Value) : Except BindingError Value := do
  let parent ← v.follow path keys.dropLast
  match parent.step? (keys.getLastD "") with
  | some w => return w
  | none =>
    if parent.isNull then .error (.unresolvedPath path (keys.getLastD "")) else return .null

def read (data : Value) (path : String) : Except BindingError Value := do
  data.readKeys path (← Path.segments path)

/-- The data after a write to a path, or why nothing is written. -/
def assigned (data : Value) (path : String) (w : Value) : Except BindingError Value := do
  let keys ← Path.segments path
  let parent ← data.follow path keys.dropLast
  match parent.setMember (keys.getLastD "") w with
  | (.missing, _) => .error (.unresolvedPath path (keys.getLastD ""))
  | (.silent, changed) => return data.putAt keys.dropLast changed
  | _ => return data

/-- On the way along the keys an index of an array is misspelt. -/
def Misspells : List String → Value → Prop
  | [], _ => False
  | key :: rest, v =>
    (v.isArray = true ∧ Index.Misspelt key) ∨ ∃ inner, v.step? key = some inner ∧
      inner.Misspells rest

theorem follow_eq_ok (reached : v.follow path keys = .ok w) : v.at? keys = some w := by
  induction keys generalizing v with
  | nil => exact congrArg some (Except.ok.inj reached)
  | cons key rest ih =>
    simp only [follow] at reached
    cases step : v.step? key with
    | none => simp [step] at reached
    | some inner =>
      simp only [step] at reached
      simp only [at?, step, Option.bind_some, ih reached]

theorem follow_of_at? (path : String) (found : v.at? keys = some w) :
    v.follow path keys = .ok w := by
  induction keys generalizing v with
  | nil => exact congrArg Except.ok (Option.some.inj found)
  | cons key rest ih =>
    obtain ⟨inner, step, further⟩ := Option.bind_eq_some_iff.mp found
    simp only [follow, step, ih further]

/-- Keys that lead somewhere are spelt well as far as they do. -/
theorem misspells_append {before : List String} (found : v.at? before = some w)
    (after : List String) : v.Misspells (before ++ after) ↔ w.Misspells after := by
  induction before generalizing v with
  | nil =>
    obtain rfl := Option.some.inj found
    rfl
  | cons key rest ih =>
    obtain ⟨inner, step, further⟩ := Option.bind_eq_some_iff.mp found
    simp only [List.cons_append, Misspells, step, Option.some.injEq, exists_eq_left', ih further]
    refine or_iff_right ?_
    rintro ⟨array, misspelt⟩
    cases (step?_misspelt array misspelt).symm.trans step

theorem Misspells.append {before : List String} (misspells : v.Misspells before)
    (after : List String) : v.Misspells (before ++ after) := by
  induction before generalizing v with
  | nil => cases misspells
  | cons key rest ih =>
    obtain here | ⟨inner, step, further⟩ := misspells
    · exact .inl here
    · exact .inr ⟨inner, step, ih further⟩

theorem misspells_singleton :
    v.Misspells [key] ↔ v.isArray = true ∧ Index.Misspelt key := by
  simp [Misspells]

theorem isNull_of_isArray (array : v.isArray = true) : v.isNull = false := by
  cases v <;> first | rfl | cases array

theorem readKeys_of_follow {parent : Value} (reached : v.follow path keys.dropLast = .ok parent) :
    v.readKeys path keys = match parent.step? (keys.getLastD "") with
      | some w => .ok w
      | none =>
        if parent.isNull then .error (.unresolvedPath path (keys.getLastD "")) else .ok .null := by
  simp only [readKeys, bind, Except.bind, reached]
  rfl

theorem read_eq (notBlank : Path.isEmpty path = false) :
    data.read path = data.readKeys path (Path.pieces path) := by
  simp only [read, Path.segments, notBlank, Bool.false_eq_true, if_false, bind, Except.bind]

theorem assigned_of_follow {parent : Value} (notBlank : Path.isEmpty path = false)
    (reached : data.follow path (Path.pieces path).dropLast = .ok parent) (w : Value) :
    data.assigned path w =
      match parent.setMember ((Path.pieces path).getLastD "") w with
      | (.missing, _) => .error (.unresolvedPath path ((Path.pieces path).getLastD ""))
      | (.silent, changed) => .ok (data.putAt (Path.pieces path).dropLast changed)
      | _ => .ok data := by
  simp only [assigned, Path.segments, notBlank, Bool.false_eq_true, if_false, bind, Except.bind,
    reached]
  rfl

theorem assigned_of_error {e : BindingError} (notBlank : Path.isEmpty path = false)
    (failed : data.follow path (Path.pieces path).dropLast = .error e) (w : Value) :
    data.assigned path w = .error e := by
  simp only [assigned, Path.segments, notBlank, Bool.false_eq_true, if_false, bind, Except.bind,
    failed]

/-- A write that succeeds has found the parent of its path, and the last member is written there or
was equal already. -/
theorem assigned_eq_ok (wrote : data.assigned path w = .ok data') :
    Path.isEmpty path = false ∧
    ∃ parent parent' current, data.at? (Path.pieces path).dropLast = some parent ∧
      data'.at? (Path.pieces path).dropLast = some parent' ∧ parent'.isArray = parent.isArray ∧
      parent'.member? ((Path.pieces path).getLastD "") = some current ∧
      current.strictEq w = true := by
  cases blank : Path.isEmpty path with
  | true => simp [assigned, Path.segments, blank, bind, Except.bind] at wrote
  | false =>
    refine ⟨rfl, ?_⟩
    cases reached : data.follow path (Path.pieces path).dropLast with
    | error e => cases (assigned_of_error blank reached w).symm.trans wrote
    | ok parent =>
      rw [assigned_of_follow blank reached] at wrote
      have there := follow_eq_ok reached
      obtain missing | ⟨same, current, member, equal⟩ | ⟨changed, silent, member, array⟩ :=
        setMember_cases parent ((Path.pieces path).getLastD "") w
      · simp only [missing] at wrote
        cases wrote
      · simp only [same] at wrote
        obtain rfl := Except.ok.inj wrote
        exact ⟨parent, parent, current, there, there, rfl, member, equal⟩
      · simp only [silent] at wrote
        obtain rfl := Except.ok.inj wrote
        exact ⟨parent, changed, w, there, at?_putAt there changed, array, member, strictEq_self w⟩

theorem follow_eq_error {e : BindingError} : v.follow path keys = .error e ↔
    ∃ way key rest place, keys = way ++ key :: rest ∧ v.at? way = some place ∧
      place.step? key = none ∧ e = .unresolvedPath path key := by
  induction keys generalizing v with
  | nil =>
    constructor
    · intro failed
      cases failed
    · rintro ⟨way, key, rest, place, split, -⟩
      simp at split
  | cons first keys ih =>
    cases step : v.step? first with
    | none =>
      simp only [follow, step]
      constructor
      · intro failed
        exact ⟨[], first, keys, v, rfl, rfl, step, (Except.error.inj failed).symm⟩
      · rintro ⟨way, key, rest, place, split, reached, missing, rfl⟩
        cases way with
        | nil => rw [(List.cons.inj split).1]
        | cons other way =>
          obtain ⟨rfl, -⟩ := List.cons.inj split
          simp [at?, step] at reached
    | some inner =>
      simp only [follow, step, ih]
      constructor
      · rintro ⟨way, key, rest, place, rfl, reached, missing, rfl⟩
        refine ⟨first :: way, key, rest, place, rfl, ?_, missing, rfl⟩
        simp only [at?, step, Option.bind_some, reached]
      · rintro ⟨way, key, rest, place, split, reached, missing, rfl⟩
        cases way with
        | nil =>
          obtain ⟨rfl, -⟩ := List.cons.inj split
          obtain rfl := Option.some.inj reached
          cases step.symm.trans missing
        | cons other way =>
          obtain ⟨rfl, rfl⟩ := List.cons.inj split
          simp only [at?, step, Option.bind_some] at reached
          exact ⟨way, key, rest, place, rfl, reached, missing, rfl⟩

/-- A value takes no member of this name: it is no object, and it has no such member. -/
def Lacks (v : Value) (key : String) : Prop :=
  (∀ fields, v ≠ .object fields) ∧ v.member? key = none

theorem setMember_eq_missing : v.setMember key w = (.missing, v) ↔ v.Lacks key := by
  cases v with
  | object fields =>
    constructor
    · intro missing
      simp only [setMember] at missing
      split at missing
      · cases missing
      · split at missing <;> cases missing
    · intro lacks
      exact (lacks.1 fields rfl).elim
  | array items =>
    simp only [Lacks, setMember, member?]
    cases parsed : Index.parse? key with
    | none => simp
    | some i =>
      cases found : items[i]? with
      | none => simp [found]
      | some current =>
        simp only [Option.bind_some, found, reduceCtorEq, and_false, iff_false]
        split <;> simp
  | _ => simp [Lacks, setMember, member?]

/-- Why data takes no value at a path: the path is blank, the way to the last key breaks off, or the
value that it leads to lacks the last key. -/
inductive Refuses (data : Value) (path : String) : BindingError → Prop
  | blank : Path.isEmpty path = true → Refuses data path .emptyPath
  | away {way rest : List String} {key : String} {place : Value} : Path.isEmpty path = false →
      Path.pieces path = way ++ key :: rest → rest ≠ [] → data.at? way = some place →
      place.step? key = none → Refuses data path (.unresolvedPath path key)
  | last {way : List String} {key : String} {place : Value} : Path.isEmpty path = false →
      Path.pieces path = way ++ [key] → data.at? way = some place → place.Lacks key →
      Refuses data path (.unresolvedPath path key)

/-- Writes fail where the data refuses them, whatever the value. -/
theorem assigned_eq_error {e : BindingError} :
    data.assigned path w = .error e ↔ data.Refuses path e := by
  cases blank : Path.isEmpty path with
  | true =>
    have refused : data.assigned path w = .error .emptyPath := by
      simp [assigned, Path.segments, blank, bind, Except.bind]
    constructor
    · intro failed
      obtain rfl := Except.error.inj (refused.symm.trans failed)
      exact .blank blank
    · rintro (_ | ⟨filled, -⟩ | ⟨filled, -⟩)
      · exact refused
      · cases blank.symm.trans filled
      · cases blank.symm.trans filled
  | false =>
    have whole := Path.dropLast_append_getLastD path
    constructor
    · intro failed
      cases reached : data.follow path (Path.pieces path).dropLast with
      | error e' =>
        obtain rfl := Except.error.inj ((assigned_of_error blank reached w).symm.trans failed)
        obtain ⟨way, key, rest, place, split, there, missing, rfl⟩ := follow_eq_error.mp reached
        rw [split, List.append_assoc, List.cons_append] at whole
        exact .away blank whole.symm (List.concat_ne_nil _ _) there missing
      | ok parent =>
        rw [assigned_of_follow blank reached] at failed
        obtain missing | ⟨unchanged, -⟩ | ⟨changed, silent, -⟩ :=
          setMember_cases parent ((Path.pieces path).getLastD "") w
        · simp only [missing] at failed
          obtain rfl := Except.error.inj failed
          exact .last blank whole.symm (follow_eq_ok reached) (setMember_eq_missing.mp missing)
        · simp only [unchanged] at failed
          cases failed
        · simp only [silent] at failed
          cases failed
    · intro refused
      cases refused with
      | blank blank' => cases blank.symm.trans blank'
      | @away way rest key place _ split more reached missing =>
        have breaks : (Path.pieces path).dropLast = way ++ key :: rest.dropLast := by
          rw [split, List.dropLast_append_of_ne_nil (List.cons_ne_nil _ _),
            List.dropLast_cons_of_ne_nil more]
        exact assigned_of_error blank
          (follow_eq_error.mpr ⟨way, key, _, place, breaks, reached, missing, rfl⟩) w
      | @last way key place _ split reached lacks =>
        have parent : data.follow path (Path.pieces path).dropLast = .ok place := by
          rw [split, List.dropLast_concat]
          exact follow_of_at? path reached
        rw [assigned_of_follow blank parent, split, List.getLastD_concat,
          setMember_eq_missing.mpr lacks]

/-- What is written at a path reads back there. Where the path misspells an index it reads as null,
since reading takes no such spelling. -/
theorem read_assigned (wrote : data.assigned path w = .ok data') :
    ∃ u, data'.read path = .ok u ∧
      (data.Misspells (Path.pieces path) → u = .null) ∧
      (¬ data.Misspells (Path.pieces path) → u.strictEq w = true) := by
  obtain ⟨notBlank, parent, parent', current, there, there', array, member, equal⟩ :=
    assigned_eq_ok wrote
  have misspells : data.Misspells (Path.pieces path) ↔
      parent'.isArray = true ∧ Index.Misspelt ((Path.pieces path).getLastD "") := by
    rw [array, ← misspells_singleton, ← misspells_append there, Path.dropLast_append_getLastD]
  rw [read_eq notBlank, readKeys_of_follow (follow_of_at? path there'), misspells]
  by_cases misspelt : parent'.isArray = true ∧ Index.Misspelt ((Path.pieces path).getLastD "")
  · refine ⟨.null, ?_, fun _ => rfl, fun spelt => (spelt misspelt).elim⟩
    simp only [step?_misspelt misspelt.1 misspelt.2, isNull_of_isArray misspelt.1,
      Bool.false_eq_true, if_false]
  · have step := member?_eq_step? fun isArray wrong => misspelt ⟨isArray, wrong⟩
    refine ⟨current, ?_, fun wrong => (misspelt wrong).elim, fun _ => equal⟩
    simp only [← step, member]

end Value
end ReactiveView
