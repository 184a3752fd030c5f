import ReactiveView.Proofs.Reaction.Computing
import ReactiveView.Proofs.Reaction.Currency
import ReactiveView.Proofs.Store.Arising

/-! What an observer depends on. Making an observer registers it on the cells that its path names on
the way, and, behind a computed property, on the cells captured by what the getter reads. No other
registry changes, an observer that could not be made is in none that matters, and updates register
nobody. -/
namespace ReactiveView

variable {κ : Type}

/-- The code reads a path, given what the paths read before it come to. -/
inductive Program.Reads (answers : String → Except BindingError Value → Prop) :
    Program κ Value → String → Prop
  | here {source : Source} {path : String} {next : Except BindingError Value → Program κ Value} :
      Reads answers (.call (.read source path) next) path
  | later {source : Source} {path q : String} {next : Except BindingError Value → Program κ Value}
      {a : Except BindingError Value} : answers path a → Reads answers (next a) q →
      Reads answers (.call (.read source path) next) q

/-- A non-empty prefix of the keys leads from one cell to the other. -/
def Store.Named {γ : Type} (s : Store γ) (a : CellId) (keys : List String) (c : CellId) : Prop :=
  ∃ way, way ≠ [] ∧ way <+: keys ∧ s.descend? a way = some c

/-- What a path of a store reads as without a tracker. -/
def ReadsAs (host : Nat → Performer κ → κ → Run κ Unit) (id : StoreId) (w : World κ) (path : String)
    (answer : Except BindingError Value) : Prop :=
  ∃ levels, Scope.resolve (performer host levels) { store := id } path w = some (answer, w)

/-- The cells that a path depends on: those that a prefix of the path names, and those that the
paths read by the getter depend on if the path starts with a computed property. -/
inductive Captured (host : Nat → Performer κ → κ → Run κ Unit) (id : StoreId) (w : World κ)
    (s : Store (Computed κ)) : String → CellId → Prop
  | named {path : String} {keys : List String} {c : CellId} : Path.segments path = .ok keys →
      s.Named s.root keys c → Captured host id w s path c
  | read {path name q : String} {rest : List String} {x c : CellId} {property : Computed κ} :
      Path.segments path = .ok (name :: rest) → s.child? s.root name = some x →
      s.content x = .computed property →
      (property.getter { store := id }).Reads (ReadsAs host id w) q →
      Captured host id w s q c → Captured host id w s path c

namespace Store

section Naming

variable {γ : Type} {s : Store γ} {allowed : γ → Prop} {made : ObserverId}
variable {a c x : CellId} {key : String} {rest : List String}

theorem not_named_nil : ¬ s.Named a [] c := by
  rintro ⟨way, some, before, -⟩
  exact some (List.prefix_nil.mp before)

theorem named_cons : s.Named a (key :: rest) c ↔
    ∃ x, s.child? a key = some x ∧ (c = x ∨ s.Named x rest c) := by
  constructor
  · rintro ⟨_ | ⟨first, way⟩, some, before, reached⟩
    · exact (some rfl).elim
    · obtain ⟨rfl, within⟩ := List.cons_prefix_cons.mp before
      obtain ⟨x, member, further⟩ := Option.bind_eq_some_iff.mp reached
      refine ⟨x, member, ?_⟩
      cases way with
      | nil => exact .inl (Option.some.inj further).symm
      | cons second way => exact .inr ⟨_, List.cons_ne_nil _ _, within, further⟩
  · rintro ⟨x, member, rfl | ⟨way, -, before, reached⟩⟩
    · exact ⟨[key], List.cons_ne_nil _ _, List.cons_prefix_cons.mpr ⟨rfl, List.nil_prefix⟩,
        by simp only [descend?, member, Option.bind_some]⟩
    · exact ⟨key :: way, List.cons_ne_nil _ _, List.cons_prefix_cons.mpr ⟨rfl, before⟩,
        by simp only [descend?, member, Option.bind_some, reached]⟩

theorem Named.object (named : s.Named a rest c) : s.handleOf a = .object a := by
  obtain ⟨_ | ⟨first, way⟩, some, -, reached⟩ := named
  · exact (some rfl).elim
  · obtain ⟨x, member, -⟩ := Option.bind_eq_some_iff.mp reached
    obtain ⟨keys, object, -⟩ := object_of_child? member
    exact handleOf_object object

theorem Named.inside (named : s.Named a rest c) (sound : s.Sound) : c < s.cells.size := by
  obtain ⟨way, some, -, reached⟩ := named
  obtain ⟨before, last, rfl⟩ := (List.eq_nil_or_concat way).resolve_left some
  rw [List.concat_eq_append, descend?_append] at reached
  obtain ⟨parent, -, member⟩ := Option.bind_eq_some_iff.mp reached
  exact (sound.child member).1

end Naming
end Store

section Cells

variable {s : Store (Computed κ)} {allowed : Computed κ → Prop} {made : ObserverId}
variable {id : StoreId} {reads : String → Option Reading} {r : Reading} {path : String}
variable {answers : String → Except BindingError Value → Prop}

/-- Each path read by the code has come to something if the code has. -/
theorem Program.Reads.came {p : Program κ Value} {q : String} (isRead : p.Reads answers q)
    (agree : ∀ q first, reads q = some first → ∀ a, answers q a ↔ a = first.answer)
    (came : p.reading reads = some r) : ∃ first, reads q = some first := by
  induction isRead generalizing r with
  | here =>
    obtain ⟨first, read, -⟩ := Option.bind_eq_some_iff.mp came
    exact ⟨first, read⟩
  | later answered _ ih =>
    obtain ⟨first, read, rest⟩ := Option.bind_eq_some_iff.mp came
    obtain ⟨later, further, -⟩ := Option.map_eq_some_iff.mp rest
    obtain rfl := (agree _ first read _).mp answered
    exact ih further

/-- The cells passed by code that only reads are those passed on the paths that it reads. -/
theorem Program.mem_reading
    (agree : ∀ q first, reads q = some first → ∀ a, answers q a ↔ a = first.answer)
    (p : Program κ Value) (came : p.reading reads = some r) (c : CellId) :
    c ∈ r.cells ↔ ∃ q first, p.Reads answers q ∧ reads q = some first ∧ c ∈ first.cells := by
  induction p generalizing r with
  | done result =>
    obtain rfl := Option.some.inj came
    constructor
    · exact nofun
    · rintro ⟨q, first, wrong, -⟩
      cases wrong
  | call call next ih =>
    cases call with
    | read source path =>
      obtain ⟨first, read, rest⟩ := Option.bind_eq_some_iff.mp came
      obtain ⟨later, further, rfl⟩ := Option.map_eq_some_iff.mp rest
      have answered : answers path first.answer := (agree path first read _).mpr rfl
      rw [Reading.after, List.mem_append, ih first.answer further]
      constructor
      · rintro (passed | ⟨q, second, reads, got, passed⟩)
        · exact ⟨path, first, .here, read, passed⟩
        · exact ⟨q, second, .later answered reads, got, passed⟩
      · rintro ⟨q, second, reads, got, passed⟩
        cases reads with
        | here =>
          obtain rfl := Option.some.inj (read.symm.trans got)
          exact .inl passed
        | later answers reads =>
          obtain rfl := (agree path first read _).mp answers
          exact .inr ⟨q, second, reads, got, passed⟩
    | _ => cases came

namespace Store

/-- Where the first key finds data, the cells passed are named by the keys if those
passed later are. -/
theorem mem_readingFrom_cons (formed : s.Formed allowed made) {key : String} {rest : List String}
    (later : ∀ place r, place ≠ .object s.root → s.readingFrom id reads path rest place = some r →
      ∀ c, c ∈ r.cells ↔ ∃ a, place = .object a ∧ s.Named a rest c)
    {place : Handle} (data : ∀ x property, s.find place key ≠ .computed x property)
    (came : s.readingFrom id reads path (key :: rest) place = some r) (c : CellId) :
    c ∈ r.cells ↔ ∃ a, place = .object a ∧ s.Named a (key :: rest) c := by
  unfold readingFrom at came
  obtain ⟨a, x, rfl, member, cell | ⟨property, -, computed⟩⟩ | ⟨alone, found⟩ :=
    s.find_cases place key
  · simp only [cell] at came
    obtain ⟨further, went, rfl⟩ := Option.map_eq_some_iff.mp came
    have notRoot : s.handleOf x ≠ .object s.root := by
      intro same
      exact (formed.sound.child member).2 (handleOf_eq_object same).1.symm
    rw [Reading.after, List.mem_append, List.mem_singleton, later _ _ notRoot went]
    constructor
    · rintro (rfl | ⟨b, same, named⟩)
      · exact ⟨a, rfl, named_cons.mpr ⟨c, member, .inl rfl⟩⟩
      · obtain rfl := (handleOf_eq_object same).1
        exact ⟨a, rfl, named_cons.mpr ⟨b, member, .inr named⟩⟩
    · rintro ⟨_, ⟨⟩, named⟩
      obtain ⟨y, member', same⟩ := named_cons.mp named
      obtain rfl := Option.some.inj (member.symm.trans member')
      exact same.imp_right fun named => ⟨x, named.object, named⟩
  · exact (data x property computed).elim
  · have nothing : ¬ ∃ a, place = .object a ∧ s.Named a (key :: rest) c := by
      rintro ⟨a, same, named⟩
      obtain ⟨x, member, -⟩ := named_cons.mp named
      cases (alone a same).symm.trans member
    refine iff_of_false ?_ nothing
    obtain missing | ⟨next, inside, within⟩ := found
    · simp only [missing] at came
      obtain rfl := Option.some.inj came
      exact List.not_mem_nil
    · simp only [inside] at came
      intro passed
      obtain ⟨b, same, -⟩ := (later next r (within _) came c).mp passed
      exact within b same

/-- Behind the root all cells passed are named by the keys. -/
theorem mem_readingFrom (formed : s.Formed allowed made) {keys : List String} {place : Handle}
    (away : place ≠ .object s.root) (came : s.readingFrom id reads path keys place = some r)
    (c : CellId) : c ∈ r.cells ↔ ∃ a, place = .object a ∧ s.Named a keys c := by
  induction keys generalizing place r c with
  | nil =>
    obtain rfl := Option.some.inj came
    constructor
    · exact nofun
    · rintro ⟨a, -, wrong⟩
      exact (not_named_nil wrong).elim
  | cons key rest ih =>
    refine mem_readingFrom_cons formed (fun _ _ away came c => ih away came c) ?_ came c
    intro x property found
    obtain ⟨content, a, rfl, member⟩ := computed_of_find found
    obtain ⟨keys, object, member⟩ := object_of_child? member
    have outer := formed.outermost a keys object _ (mem_of_lookup member) property content
    exact away (congrArg Handle.object outer)

/-- Behind a computed property no cells are passed but those that its getter passes. -/
theorem mem_readingFrom_computed (formed : s.Formed allowed made) {a x : CellId} {name : String}
    {rest : List String} {property : Computed κ} (member : s.child? a name = some x)
    (content : s.content x = .computed property)
    (came : s.readingFrom id reads path (name :: rest) (.object a) = some r) :
    ∃ first, (property.getter { store := id }).reading reads = some first ∧
      ∀ c, c ∈ r.cells ↔ c = x ∨ c ∈ first.cells := by
  unfold readingFrom at came
  simp only [find_computed member content] at came
  obtain ⟨⟨answer, cells⟩, got, ended⟩ := Option.bind_eq_some_iff.mp came
  refine ⟨_, got, fun c => ?_⟩
  cases answer with
  | error e =>
    obtain rfl := Option.some.inj ended
    exact List.mem_cons
  | ok v =>
    obtain ⟨later, further, rfl⟩ := Option.map_eq_some_iff.mp ended
    have away : Handle.detached v ≠ .object s.root := nofun
    have none : c ∉ later.cells := by
      intro passed
      obtain ⟨b, wrong, -⟩ := (mem_readingFrom formed away further c).mp passed
      cases wrong
    rw [Reading.after, List.mem_append, List.mem_cons, or_iff_left none]

end Store
end Cells

section Capturing

variable {host : Nat → Performer κ → κ → Run κ Unit} {id : StoreId} {w w' : World κ}
variable {s : Store (Computed κ)} {allowed : Computed κ → Prop} {made : ObserverId}
variable {path : String} {r : Reading}

/-- Without a tracker a path reads as the data and the getters have it, and the world
stays as it is. -/
theorem resolve_untracked_reading (only : s.ReadsOnly) (here : w.stores[id]? = some s)
    (levels : Nat) (path : String) : Scope.resolve (performer host levels) { store := id } path w =
      (s.reading id (levels + 1) path).map fun r => (r.answer, w) := by
  have calm : Reading.result id none s w = fun r => (r.answer, w) := by
    funext r
    rw [Reading.result, Store.track, World.withStore_self here]
  rw [← calm]
  exact Scope.resolve_performer host only here levels path

theorem readsAs_iff (only : s.ReadsOnly) (here : w.stores[id]? = some s) {levels : Nat}
    (came : s.reading id levels path = some r) (a : Except BindingError Value) :
    ReadsAs host id w path a ↔ a = r.answer := by
  constructor
  · rintro ⟨levels', resolved⟩
    rw [resolve_untracked_reading only here] at resolved
    obtain ⟨r', came', same⟩ := Option.map_eq_some_iff.mp resolved
    rw [Store.reading_unique came came']
    exact (Prod.mk.inj same).1.symm
  · rintro rfl
    cases levels with
    | zero => cases came
    | succ levels => exact ⟨levels, by rw [resolve_untracked_reading only here, came]; rfl⟩

/-- Behind a computed property a path depends on what the getter depends on. -/
theorem captured_computed {name : String} {rest : List String} {x c : CellId}
    {property : Computed κ} (split : Path.segments path = .ok (name :: rest))
    (member : s.child? s.root name = some x) (content : s.content x = .computed property) :
    Captured host id w s path c ↔ c = x ∨ ∃ q,
      (property.getter { store := id }).Reads (ReadsAs host id w) q ∧ Captured host id w s q c := by
  constructor
  · intro captured
    cases captured with
    | named split' named =>
      obtain rfl := Except.ok.inj (split.symm.trans split')
      obtain ⟨y, member', same⟩ := Store.named_cons.mp named
      obtain rfl := Option.some.inj (member.symm.trans member')
      refine .inl (same.resolve_right fun named => ?_)
      obtain ⟨-, keys, object⟩ := Store.handleOf_eq_object named.object
      cases content.symm.trans object
    | read split' member' content' reads captured =>
      obtain ⟨rfl, rfl⟩ := List.cons.inj (Except.ok.inj (split.symm.trans split'))
      obtain rfl := Option.some.inj (member.symm.trans member')
      obtain rfl := Content.computed.inj (content.symm.trans content')
      exact .inr ⟨_, reads, captured⟩
  · rintro (rfl | ⟨q, reads, captured⟩)
    · exact .named split (Store.named_cons.mpr ⟨c, member, .inl rfl⟩)
    · exact .read split member content reads captured

/-- A path that starts with data depends on what it names. -/
theorem captured_data {name : String} {rest : List String} {c : CellId}
    (split : Path.segments path = .ok (name :: rest))
    (data : ∀ x property, s.child? s.root name = some x → s.content x ≠ .computed property) :
    Captured host id w s path c ↔ s.Named s.root (name :: rest) c := by
  constructor
  · intro captured
    cases captured with
    | named split' named =>
      obtain rfl := Except.ok.inj (split.symm.trans split')
      exact named
    | read split' member content =>
      obtain ⟨rfl, rfl⟩ := List.cons.inj (Except.ok.inj (split.symm.trans split'))
      exact (data _ _ member content).elim
  · exact .named split

theorem not_captured {e : BindingError} {c : CellId} (split : Path.segments path = .error e) :
    ¬ Captured host id w s path c := by
  intro captured
  cases captured with
  | named split' => cases split.symm.trans split'
  | read split' => cases split.symm.trans split'

/-- Reading a path passes the cells that the path depends on. -/
theorem mem_reading_iff (formed : s.Formed allowed made) (only : s.ReadsOnly)
    (here : w.stores[id]? = some s) {levels : Nat} (came : s.reading id levels path = some r)
    (c : CellId) : c ∈ r.cells ↔ Captured host id w s path c := by
  induction levels generalizing path r c with
  | zero => cases came
  | succ levels ih =>
    have agree : ∀ q first, s.reading id levels q = some first →
        ∀ a, ReadsAs host id w q a ↔ a = first.answer := fun q first => readsAs_iff only here
    rw [Store.reading, Store.readingOf] at came
    cases split : Path.segments path with
    | error e =>
      simp only [split] at came
      obtain rfl := Option.some.inj came
      exact iff_of_false List.not_mem_nil (not_captured split)
    | ok keys =>
      simp only [split] at came
      obtain ⟨name, rest, rfl⟩ := List.exists_cons_of_ne_nil
        (Path.eq_pieces_of_segments split ▸ Path.pieces_ne_nil path)
      by_cases code : ∃ x property, s.child? s.root name = some x ∧ s.content x = .computed property
      · obtain ⟨x, property, member, content⟩ := code
        obtain ⟨first, got, cells⟩ := Store.mem_readingFrom_computed formed member content came
        rw [cells, captured_computed split member content, Program.mem_reading agree _ got]
        refine or_congr_right ⟨?_, ?_⟩
        · rintro ⟨q, second, reads, read, passed⟩
          exact ⟨q, reads, (ih read c).mp passed⟩
        · rintro ⟨q, reads, captured⟩
          obtain ⟨second, read⟩ := reads.came agree got
          exact ⟨q, second, reads, read, (ih read c).mpr captured⟩
      · have data : ∀ x property, s.child? s.root name = some x →
            s.content x ≠ .computed property :=
          fun x property member content => code ⟨x, property, member, content⟩
        have plainly : ∀ x property, s.find (.object s.root) name ≠ .computed x property := by
          intro x property found
          obtain ⟨content, _, ⟨⟩, member⟩ := Store.computed_of_find found
          exact data x property member content
        rw [captured_data split data,
          Store.mem_readingFrom_cons formed (fun _ _ =>
            Store.mem_readingFrom formed) plainly came c]
        constructor
        · rintro ⟨_, ⟨⟩, named⟩
          exact named
        · intro named
          exact ⟨s.root, rfl, named⟩

theorem Captured.inside (sound : s.Sound) {c : CellId} (captured : Captured host id w s path c) :
    c < s.cells.size := by
  induction captured with
  | named _ named => exact named.inside sound
  | read _ _ _ _ _ ih => exact ih

/-- Making an observer adds it, registered on the cells passed, even if its path comes to nothing;
it keeps the value that its path comes to. -/
theorem observe_performer (only : s.ReadsOnly) (here : w.stores[id]? = some s) {levels : Nat}
    (filled : Path.isEmpty path = false) {effect : Effect κ}
    {answer : Except BindingError ObserverId}
    (ran : observe (performer host levels) id path effect w = some (answer, w')) :
    ∃ r value, s.reading id (levels + 1) path = some r ∧
      answer = r.answer.map (fun _ => w.observers.size) ∧
      w' = w.observing id (s.track (some w.observers.size) r.cells) { path, value, effect } ∧
      ∀ v, r.answer = .ok v → value = v := by
  have read : ∀ w₁ : World κ, w₁.stores[id]? = some s →
      Scope.resolve (performer host levels) ⟨id, some w.observers.size⟩ path w₁ =
        (s.reading id (levels + 1) path).map (Reading.result id (some w.observers.size) s w₁) :=
    fun w₁ there => Scope.resolve_performer host only there levels path
  rw [observe_run _ id filled] at ran
  obtain ⟨e, failed, rfl⟩ | ⟨initial, w₁, resolved, kept⟩ := Run.bind_eq_some ran
  · obtain ⟨inner, answered, rfl⟩ := Run.pinning_eq_some failed
    obtain ⟨r, came, same⟩ :=
      Option.map_eq_some_iff.mp ((read _ (by exact here)).symm.trans answered)
    obtain ⟨error, rfl⟩ := Prod.mk.inj same
    refine ⟨r, .null, came, by rw [error]; rfl, rfl, ?_⟩
    intro v value
    cases error.symm.trans value
  · obtain ⟨inner, answered, rfl⟩ := Run.pinning_eq_some resolved
    obtain ⟨r, came, same⟩ :=
      Option.map_eq_some_iff.mp ((read _ (by exact here)).symm.trans answered)
    obtain ⟨value, rfl⟩ := Prod.mk.inj same
    obtain ⟨rfl, rfl⟩ := Prod.mk.inj (Option.some.inj kept)
    refine ⟨r, initial, came, by rw [value]; rfl, ?_, ?_⟩
    · exact congrArg (fun observers =>
        { w.withStore id (s.track (some w.observers.size) r.cells) with
        observers := observers }) (modify_push w.observers _ _)
    · intro v value'
      exact Except.ok.inj (value.symm.trans value')

/-- Making an observer registers it on the cells passed, and changes nothing else that observers of
stores are found by. -/
theorem observe_reading (only : s.ReadsOnly) (here : w.stores[id]? = some s) {levels : Nat}
    (filled : Path.isEmpty path = false) {effect : Effect κ}
    {answer : Except BindingError ObserverId}
    (ran : observe (performer host levels) id path effect w = some (answer, w')) :
    ∃ r, s.reading id (levels + 1) path = some r ∧
      answer = r.answer.map (fun _ => w.observers.size) ∧
      w'.stores = (w.withStore id (s.track (some w.observers.size) r.cells)).stores ∧
      w'.names = w.names ∧ w'.pins = w.pins ∧ w'.views = w.views := by
  obtain ⟨r, value, came, answered, rfl, -⟩ := observe_performer only here filled ran
  exact ⟨r, came, answered, rfl, rfl, rfl, rfl⟩

/-- An untracked read of a path leaves the world as it is. -/
theorem resolve_untracked_keeps (only : s.ReadsOnly) (here : w.stores[id]? = some s) {levels : Nat}
    {answer : Except BindingError Value}
    (ran : Scope.resolve (performer host levels) { store := id } path w = some (answer, w')) :
    w' = w := by
  rw [resolve_untracked_reading only here] at ran
  obtain ⟨r, -, same⟩ := Option.map_eq_some_iff.mp ran
  exact (Prod.mk.inj same).2.symm

/-- An update that does not start the effect changes nothing. Else all that has changed when the
effect starts is the value that the observer keeps, and the update ends with the effect. -/
theorem updateObserver_reading (only : s.ReadsOnly) (here : w.stores[id]? = some s) {levels : Nat}
    {o : ObserverId} {observer : Observer κ} (found : w.observers[o]? = some observer)
    {answer : Except BindingError Unit}
    (ran : updateObserver (performer host levels) id o w = some (answer, w')) :
    w' = w ∨ ∃ new,
      Scope.resolve (performer host levels) { store := id } observer.path w = some (.ok new, w) ∧
      observer.value.strictEq new = false ∧
      observer.effect.fire (performer host levels) new observer.value { w with
        observers := w.observers.modify o fun observer => { observer with value := new }
        journal := ⟨o, new, observer.value⟩ :: w.journal } = some (answer, w') := by
  obtain ⟨_, looked, known⟩ := Run.observer_run o w
  obtain rfl := known observer found
  unfold updateObserver at ran
  rw [Run.bind_of_ok looked] at ran
  obtain ⟨e, failed, rfl⟩ | ⟨new, w₁, resolved, rest⟩ := Run.bind_eq_some ran
  · exact .inl (resolve_untracked_keeps only here failed)
  · obtain rfl := resolve_untracked_keeps only here resolved
    rw [Run.bind_of_ok looked] at rest
    split at rest
    · exact .inl (Prod.mk.inj (Option.some.inj rest)).2.symm
    · rename_i differs
      exact .inr ⟨new, resolved, Bool.eq_false_iff.mpr differs, rest⟩

/-- Tracking a new observer appends it to the registries of the cells passed. -/
theorem entries_track_new (formed : s.Formed allowed made) {cells : List CellId} {c : CellId}
    (passed : c ∈ cells) (inside : c < s.cells.size) : made ∉ (s.registry c).entries ∧
      ((s.track (some made) cells).registry c).entries = (s.registry c).entries ++ [made] := by
  have new : made ∉ (s.registry c).entries := by
    intro listed
    exact Nat.lt_irrefl _ (formed.listed c made listed)
  refine ⟨new, ?_⟩
  rw [Store.registry_track, if_pos ⟨passed, inside⟩, Registry.depend, if_neg new]

/-- Tracking a dead observer changes the dependents of no path. -/
theorem dependents?_track {alive : ObserverId → Bool} {o : ObserverId} (dead : alive o = false)
    (cells : List CellId) (q : String) :
    (s.track (some o) cells).dependents? alive q = s.dependents? alive q := by
  have same := Store.SameData.track (some o) cells s
  have ids : ∀ c, ((s.track (some o) cells).registry c).ids alive = (s.registry c).ids alive := by
    intro c
    rw [Store.registry_track]
    split
    · exact Registry.ids_depend dead _
    · rfl
  simp only [Store.dependents?, Store.cellAt?, same.root, same.descend?, ids]

/-- Dependency capture is exact. An observer that is made is registered on the cells that its path
depends on, once at the end of each, and on no others. If it cannot be made, the dependents of every
path are as before. No update of an observer registers anybody: it changes nothing, or it ends as
its effect does, which starts with every store as it was. -/
theorem capture_exact (host : Nat → Performer κ → κ → Run κ Unit) {levels : Nat}
    (here : w.stores[id]? = some s) (arises : s.Arises Computed.ReadsOnly w.observers.size)
    (unused : w.observerAlive w.observers.size = false) {effect : Effect κ}
    {answer : Except BindingError ObserverId}
    (ran : observe (performer host levels) id path effect w = some (answer, w')) :
    ∃ t, w'.stores = (w.withStore id t).stores ∧ s.SameData t ∧
      (∀ o, answer = .ok o →
        (∀ c, Captured host id w s path c → o ∉ (s.registry c).entries ∧
          (t.registry c).entries = (s.registry c).entries ++ [o]) ∧
        ∀ c, ¬ Captured host id w s path c → t.registry c = s.registry c) ∧
      (∀ e, answer = .error e → ∀ q,
        t.dependents? w'.observerAlive q = s.dependents? w.observerAlive q) ∧
      ∀ (o : ObserverId) (observer : Observer κ) (later : StoreId) (w₁ w₂ : World κ)
        (u : Store (Computed κ)) levels r,
        w₁.stores[later]? = some u → u.Arises Computed.ReadsOnly w₁.observers.size →
        w₁.observers[o]? = some observer →
        updateObserver (performer host levels) later o w₁ = some (r, w₂) →
        w₂ = w₁ ∨ ∃ new,
          Scope.resolve (performer host levels) { store := later } observer.path w₁ =
            some (.ok new, w₁) ∧
          observer.value.strictEq new = false ∧
          observer.effect.fire (performer host levels) new observer.value { w₁ with
            observers := w₁.observers.modify o fun observer => { observer with value := new }
            journal := ⟨o, new, observer.value⟩ :: w₁.journal } = some (r, w₂) := by
  have formed := arises.formed
  have only : s.ReadsOnly := formed.computed
  cases blank : Path.isEmpty path with
  | true =>
    unfold observe at ran
    rw [blank] at ran
    obtain ⟨rfl, rfl⟩ := Prod.mk.inj (Option.some.inj ran)
    refine ⟨s, by rw [World.withStore_self here], .refl s, nofun, fun _ _ _ => rfl, ?_⟩
    intro o observer later w₁ w₂ u levels r there arisen found updated
    exact updateObserver_reading arisen.formed.computed there found updated
  | false =>
    obtain ⟨r, came, rfl, stores, names, pins, views⟩ := observe_reading only here blank ran
    have cells : ∀ c, c ∈ r.cells ↔ Captured host id w s path c :=
      mem_reading_iff formed only here came
    refine ⟨_, stores, .track _ r.cells s, ?_, ?_, ?_⟩
    · intro o made
      obtain rfl : o = w.observers.size := by
        cases value : r.answer with
        | error e => rw [value] at made; cases made
        | ok v => rw [value] at made; exact (Except.ok.inj made).symm
      constructor
      · intro c captured
        exact entries_track_new formed ((cells c).mpr captured) (captured.inside formed.sound)
      · intro c other
        rw [Store.registry_track, if_neg fun both => other ((cells c).mp both.1)]
    · intro e failed q
      rw [show w'.observerAlive = w.observerAlive from
        funext (World.observerAlive_congr names pins views)]
      exact dependents?_track unused r.cells q
    · intro o observer later w₁ w₂ u levels r there arisen found updated
      exact updateObserver_reading arisen.formed.computed there found updated

end Capturing

def cardData : Value :=
  .object [("motto", .string ""),
    ("user", .object [("age", .string "36"), ("name", .string "ada")])]

def cardTitle : Reader :=
  .read "user.age" fun _ => .done (.ok (.string "Lady"))

/-- The label of a card is made from a name and from a title, which is computed as well. -/
def cardLabel : Reader :=
  .read "user.name" fun name => .read "title" fun title => .done (.ok (.array [title, name]))

def card : Store (Computed Empty) :=
  ((Store.ofValue cardData).defineComputed "title" { getter := cardTitle.program }).defineComputed
    "label" { getter := cardLabel.program }

theorem cardData_canonical : cardData.Canonical :=
  ⟨.cons (by decide) (.cons (by decide) .nil), trivial,
    ⟨.cons (by decide) (.cons (by decide) .nil), trivial, trivial, trivial⟩, trivial⟩

theorem card_arises : card.Arises Computed.ReadsOnly 0 :=
  .defineComputed "label" ⟨cardLabel, fun _ => rfl⟩
    (.defineComputed "title" ⟨cardTitle, fun _ => rfl⟩ (.ofValue cardData_canonical))

def cardHost (_ : Nat) (_ : Performer Empty) (command : Empty) : Run Empty Unit :=
  nomatch command

/-- The name, the title and the age are captured, and registered once. After a write of the name the
update of the observer starts its effect and leaves the registrations as they are. -/
theorem card_captured : ∃ (w' w₂ : World Empty) (t u : Store (Computed Empty)),
    observe (performer cardHost 3) 0 "label" (.code fun _ _ => pure ()) { stores := #[card] } =
      some (.ok 0, w') ∧
    w'.stores[0]? = some t ∧
    (List.range t.cells.size).map (fun c => (t.registry c).entries) =
      [[], [0], [0], [0], [], [0], [0]] ∧
    (∀ c, Captured cardHost 0 { stores := #[card] } card "label" c ↔
      0 ∈ (t.registry c).entries) ∧
    (t.write (.object 3) "name" (.string "eve")).2 = u ∧
    updateObserver (performer cardHost 3) 0 0 (w'.withStore 0 u) = some (.ok (), w₂) ∧
    w₂.journal.length = 1 ∧ w₂.stores = (w'.withStore 0 u).stores := by
  have told : ((observe (performer cardHost 3) 0 "label" (.code fun _ _ => pure ())
      { stores := #[card] }).bind fun made =>
        made.2.stores[0]?.bind fun t =>
          (updateObserver (performer cardHost 3) 0 0
            (made.2.withStore 0 (t.write (.object 3) "name" (.string "eve")).2)).map fun ended =>
              (made.1.toOption, (List.range t.cells.size).map fun c => (t.registry c).entries,
                ended.1.isOk, ended.2.journal.length)) =
      some (some 0, [[], [0], [0], [0], [], [0], [0]], true, 1) := by decide +kernel
  obtain ⟨⟨answer, w'⟩, ran, told⟩ := Option.bind_eq_some_iff.mp told
  obtain ⟨t, there, told⟩ := Option.bind_eq_some_iff.mp told
  obtain ⟨⟨done, w₂⟩, updated, same⟩ := Option.map_eq_some_iff.mp told
  simp only [Prod.mk.injEq] at same
  obtain ⟨number, registries, fine, once⟩ := same
  cases answer with
  | error e => cases number
  | ok o =>
    cases done with
    | error e => cases fine
    | ok done =>
      obtain rfl : o = 0 := Option.some.inj number
      obtain ⟨t', stores, -, made, -, updates⟩ := capture_exact _ rfl card_arises rfl ran
      obtain ⟨captured, others⟩ := made 0 rfl
      obtain rfl : t = t' := Option.some.inj (there.symm.trans (by rw [stores]; rfl))
      refine ⟨w', w₂, t, _, ran, there, registries, fun c => ⟨fun depends => ?_, fun listed => ?_⟩,
        rfl, updated, once, ?_⟩
      · rw [(captured c depends).2]
        exact List.mem_append_right _ (List.mem_singleton_self 0)
      · by_contra free
        rw [others c free] at listed
        exact Nat.not_lt_zero 0 (card_arises.formed.listed c 0 listed)
      · obtain ⟨r, value, -, -, rfl, -⟩ :=
          observe_performer card_arises.formed.computed rfl (by decide) ran
        obtain rfl := Option.some.inj there
        have known : (card.track (some 0) r.cells).Arises Computed.ReadsOnly 1 :=
          (card_arises.more (Nat.zero_le 1)).track Nat.zero_lt_one r.cells
        have written := known.write (.object 3) "name" (.string "eve")
        obtain same | ⟨new, -, -, fired⟩ := updates 0 _ 0 _ w₂ _ 3 (.ok done) (by exact rfl)
          (by exact written) (by exact rfl) updated
        · exact congrArg World.stores same
        · obtain ⟨-, rfl⟩ := Prod.mk.inj (Option.some.inj fired)
          rfl

end ReactiveView
