import ReactiveView.Proofs.Reaction.Capture

/-! Sources of computed properties. A getter that reads a fixed list of paths, none of which names
an object, is determined by the cells that it passes: overwriting any other cell of data leaves what
it comes to, and overwriting one of these never leads it to further cells. Hence whoever is
registered on the cells that were passed once hears of every change. -/
namespace ReactiveView

variable {κ : Type}

/-- Code that reads the paths of a list and makes something of their values. -/
def Reader.listed : List String → (List Value → Except BindingError Value) → Reader
  | [], make => .done (make [])
  | path :: rest, make => .read path fun v => listed rest fun values => make (v :: values)

/-- The getter reads the paths of a list, whatever it finds there, and makes something of
their values. -/
def Computed.Lists (property : Computed κ) (paths : List String) : Prop :=
  ∃ make, ∀ scope, property.getter scope = (Reader.listed paths make).program scope

/-- All computed properties have sources: paths that they read, none of which names an object. -/
def Store.Sourced (s : Store (Computed κ)) : Prop :=
  ∀ c property, s.content c = .computed property →
    ∃ paths, property.Lists paths ∧ ∀ q ∈ paths, ¬ s.NamesObject q

theorem Store.Sourced.readsOnly {s : Store (Computed κ)} (sourced : s.Sourced) : s.ReadsOnly := by
  intro c property content
  obtain ⟨paths, ⟨make, lists⟩, -⟩ := sourced c property content
  exact ⟨Reader.listed paths make, lists⟩

/-- Reading came to a value. -/
def Reading.Succeeds (r : Reading) : Prop :=
  ∃ v, r.answer = .ok v

section Listing

variable {reads reads' : String → Option Reading} {r r' : Reading} {c : CellId} {scope : Scope}
variable {paths : List String} {make make' : List Value → Except BindingError Value}

theorem Reader.reading_read (path : String) (next : Value → Reader) :
    ((Reader.read path next).program scope : Program κ Value).reading reads =
      (reads path).bind fun first =>
        match first.answer with
        | .error e => some ⟨.error e, first.cells⟩
        | .ok v =>
          (((next v).program scope : Program κ Value).reading reads).map (.after first.cells) := by
  simp only [program, Program.ask, Bind.bind, Program.bind, Program.reading]
  congr 1
  funext first
  cases first.answer with
  | error e =>
    simp only [Program.bind, Program.reading, Option.map_some, Reading.after, List.append_nil]
  | ok v => rfl

/-- Code that does not pass a cell comes to the same if the paths that do not pass it do. -/
theorem Reader.listed_elsewhere
    (came : ((Reader.listed paths make).program scope : Program κ Value).reading reads = some r)
    (free : c ∉ r.cells)
    (agree : ∀ q ∈ paths, ∀ first, reads q = some first → c ∉ first.cells → reads' q = some first) :
    ((Reader.listed paths make).program scope : Program κ Value).reading reads' = some r := by
  induction paths generalizing make r with
  | nil => exact came
  | cons q rest ih =>
    rw [listed, reading_read] at came ⊢
    obtain ⟨⟨answer, cells⟩, read, came⟩ := Option.bind_eq_some_iff.mp came
    have same : c ∉ cells → reads' q = some ⟨answer, cells⟩ := agree q List.mem_cons_self _ read
    cases answer with
    | error e =>
      obtain rfl := Option.some.inj came
      rw [same free]
      rfl
    | ok v =>
      obtain ⟨later, further, rfl⟩ := Option.map_eq_some_iff.mp came
      obtain ⟨free, freeLater⟩ := not_or.mp (mt List.mem_append.mpr free)
      rw [same free, Option.bind_some]
      dsimp only
      rw [ih further freeLater fun p member => agree p (List.mem_cons_of_mem _ member)]
      rfl

/-- Where reading succeeds with both, the second passes no other cells. -/
def Fewer (reads reads' : String → Option Reading) (q : String) : Prop :=
  ∀ first first', reads q = some first → reads' q = some first' → first.Succeeds → first'.Succeeds →
    first'.cells ⊆ first.cells

/-- Code that reads a list of paths to its end passes no other cells than these paths do. -/
theorem Reader.listed_fewer
    (came : ((Reader.listed paths make).program scope : Program κ Value).reading reads = some r)
    (came' : ((Reader.listed paths make').program scope : Program κ Value).reading reads' = some r')
    (fine : r.Succeeds) (fine' : r'.Succeeds) (fewer : ∀ q ∈ paths, Fewer reads reads' q) :
    r'.cells ⊆ r.cells := by
  induction paths generalizing make make' r r' with
  | nil =>
    obtain rfl := Option.some.inj came'
    exact List.nil_subset _
  | cons q rest ih =>
    rw [listed, reading_read] at came came'
    obtain ⟨⟨answer, cells⟩, read, came⟩ := Option.bind_eq_some_iff.mp came
    obtain ⟨⟨answer', cells'⟩, read', came'⟩ := Option.bind_eq_some_iff.mp came'
    cases answer with
    | error e =>
      obtain rfl := Option.some.inj came
      obtain ⟨_, wrong⟩ := fine
      cases wrong
    | ok v =>
      cases answer' with
      | error e =>
        obtain rfl := Option.some.inj came'
        obtain ⟨_, wrong⟩ := fine'
        cases wrong
      | ok v' =>
        obtain ⟨later, further, rfl⟩ := Option.map_eq_some_iff.mp came
        obtain ⟨later', further', rfl⟩ := Option.map_eq_some_iff.mp came'
        have here : cells' ⊆ cells :=
          fewer q List.mem_cons_self _ _ read read' ⟨v, rfl⟩ ⟨v', rfl⟩
        have behind : later'.cells ⊆ later.cells :=
          ih further further' fine fine' fun p member => fewer p (List.mem_cons_of_mem _ member)
        exact List.append_subset.mpr ⟨List.subset_append_of_subset_left _ here,
          List.subset_append_of_subset_right _ behind⟩

end Listing

namespace Store

variable {s t : Store (Computed κ)} {c : CellId} {v : Value} {id : StoreId} {path : String}
variable {reads reads' : String → Option Reading} {r r' : Reading}

/-- Behind a place that is no object no cells are passed. -/
theorem readingFrom_within {keys : List String} {place : Handle} (within : ∀ a, place ≠ .object a)
    (came : s.readingFrom id reads path keys place = some r) : r.cells = [] := by
  induction keys generalizing place with
  | nil =>
    obtain rfl := Option.some.inj came
    rfl
  | cons key rest ih =>
    unfold readingFrom at came
    obtain ⟨a, _, same, -⟩ | ⟨-, missing | ⟨next, inside, notObject⟩⟩ := s.find_cases place key
    · exact (within a same).elim
    · simp only [missing] at came
      obtain rfl := Option.some.inj came
      rfl
    · simp only [inside] at came
      exact ih notObject came

/-- A place that is found without a cell of its own lies in the cell where it was looked for. -/
theorem inside_of_find {place next : Handle} {key : String}
    (found : s.find place key = .inside next) :
    next.cell? = place.cell? ∧ s.Settled next ∧ ∀ a, next ≠ .object a := by
  have inLeaf : ∀ a pointer, s.findInLeaf a pointer key = .inside next →
      next.cell? = some a ∧ s.Settled next ∧ ∀ a, next ≠ .object a := by
    intro a pointer found
    unfold findInLeaf at found
    split at found
    · rename_i w leaf
      split at found
      · obtain rfl := Found.inside.inj found
        refine ⟨rfl, ?_, by rintro _ ⟨⟩⟩
        rintro _ _ ⟨⟩
        exact ⟨w, leaf⟩
      · cases found
    · cases found
  cases place with
  | object a =>
    simp only [find] at found
    split at found
    · split at found
      · cases found
      · split at found <;> cases found
    · exact inLeaf a "" found
  | leaf a pointer => exact inLeaf a pointer found
  | detached w =>
    simp only [find] at found
    split at found
    · obtain rfl := Found.inside.inj found
      exact ⟨rfl, by rintro _ _ ⟨⟩, by rintro _ ⟨⟩⟩
    · cases found

theorem cell_of_find {place : Handle} {key : String} {x : CellId}
    (found : s.find place key = .cell x) :
    (∃ a, place = .object a ∧ s.child? a key = some x) ∧ s.Settled (s.handleOf x) := by
  obtain ⟨a, y, same, member, cell | ⟨property, -, computed⟩⟩ | ⟨-, missing | ⟨_, inside, -⟩⟩ :=
    s.find_cases place key
  · obtain rfl := Found.cell.inj (cell.symm.trans found)
    refine ⟨⟨a, same, member⟩, ?_⟩
    intro b pointer own
    have own' := (cell?_handleOf s y).symm.trans (congrArg Handle.cell? own)
    obtain rfl := Option.some.inj own'
    cases content : s.content y with
    | leaf w => exact ⟨w, rfl⟩
    | object keys => cases own.symm.trans (handleOf_object content)
    | computed property =>
      subst same
      cases found.symm.trans (find_computed member content)
  · cases found.symm.trans computed
  · cases found.symm.trans missing
  · cases found.symm.trans inside

namespace Overwrites

variable (wrote : Overwrites s t c v) (data : ∀ property, s.content c ≠ .computed property)
include wrote

theorem namesObject_before {q : String} (names : t.NamesObject q) : s.NamesObject q := by
  obtain ⟨x, inner, reached, object⟩ := names
  have objects : ∀ id keys, t.content id = .object keys → s.content id = .object keys :=
    fun _ _ found => (wrote.object_before found).1
  rw [cellAt?, wrote.root] at reached
  exact ⟨x, inner, descend?_before objects reached, objects x inner object⟩

theorem sourced (sourced : s.Sourced) : t.Sourced := by
  intro x property content
  have other : x ≠ c := by
    rintro rfl
    cases content.symm.trans wrote.written
  obtain ⟨paths, lists, flat⟩ := sourced x property ((wrote.others x other).symm.trans content)
  exact ⟨paths, lists, fun q member names => flat q member (wrote.namesObject_before names)⟩

include data

/-- Elsewhere the same is found, and so is the cell that is overwritten. -/
theorem find {place : Handle} (away : place.cell? ≠ some c) (key : String) :
    t.find place key = s.find place key := by
  have same : ∀ a, place.cell? = some a → t.content a = s.content a := by
    intro a own
    exact wrote.others a fun here => away (here ▸ own)
  cases place with
  | object a =>
    simp only [Store.find, findInLeaf, same a rfl]
    cases s.content a with
    | object keys =>
      dsimp only
      cases keys.lookup key with
      | none => rfl
      | some x =>
        dsimp only
        by_cases here : x = c
        · subst here
          rw [wrote.written]
          cases content : s.content x with
          | computed property => exact (data property content).elim
          | _ => rfl
        · rw [wrote.others x here]
    | _ => rfl
  | leaf a pointer => simp only [Store.find, findInLeaf, same a rfl]
  | detached w => rfl

omit data in
theorem valueOf_elsewhere {place : Handle} (away : place.cell? ≠ some c) (settled : s.Settled place)
    (flat : ∀ a, place = .object a → ∀ inner, s.content a ≠ .object inner) :
    t.valueOf place = s.valueOf place := by
  cases place with
  | object a =>
    have same : t.content a = s.content a := wrote.others a fun here => away (congrArg some here)
    simp only [Store.valueOf, snapshotOf]
    cases content : s.content a with
    | object inner => exact (flat a rfl inner content).elim
    | _ => cases t.cells.size <;> cases s.cells.size <;> simp only [snapshotTo, same, content]
  | leaf a pointer => exact wrote.valueOf away settled (by rintro _ ⟨⟩)
  | detached w => rfl

omit data in
theorem isNull_elsewhere {place : Handle} (away : place.cell? ≠ some c)
    (settled : s.Settled place) :
    Scope.isNull t place = Scope.isNull s place := by
  cases place with
  | object a => rfl
  | leaf a pointer =>
    have same : t.valueOf (.leaf a pointer) = s.valueOf (.leaf a pointer) :=
      wrote.valueOf away settled (by rintro _ ⟨⟩)
    simp only [Scope.isNull, same]
  | detached w => rfl

/-- Following keys without passing the overwritten cell comes to what it came to. -/
theorem readingFrom_elsewhere (sourced : s.Sourced)
    (agree : ∀ q, ¬ s.NamesObject q → ∀ first, reads q = some first → c ∉ first.cells →
      reads' q = some first)
    {keys : List String} {place : Handle} (away : place.cell? ≠ some c) (settled : s.Settled place)
    (flat : ∀ a, place = .object a → ∀ x inner, s.descend? a keys = some x →
      s.content x ≠ .object inner)
    (came : s.readingFrom id reads path keys place = some r) (free : c ∉ r.cells) :
    t.readingFrom id reads' path keys place = some r := by
  induction keys generalizing place r with
  | nil =>
    obtain rfl := Option.some.inj came
    rw [readingFrom, wrote.valueOf_elsewhere away settled fun a same inner =>
      flat a same a inner rfl]
  | cons key rest ih =>
    unfold readingFrom at came ⊢
    rw [wrote.find data away]
    cases found : s.find place key with
    | missing =>
      simp only [found] at came ⊢
      rw [wrote.isNull_elsewhere away settled]
      exact came
    | inside next =>
      simp only [found] at came
      obtain ⟨own, settled, notObject⟩ := inside_of_find found
      exact ih (own ▸ away) settled (fun a same => (notObject a same).elim) came free
    | cell x =>
      simp only [found] at came
      obtain ⟨later, further, rfl⟩ := Option.map_eq_some_iff.mp came
      obtain ⟨other, free⟩ := not_or.mp (mt List.mem_cons.mpr free)
      obtain ⟨⟨a, rfl, member⟩, settledNext⟩ := cell_of_find found
      have awayNext : (s.handleOf x).cell? ≠ some c := by
        rw [cell?_handleOf]
        exact fun same => other (Option.some.inj same).symm
      dsimp only
      rw [wrote.handleOf (Ne.symm other), ih awayNext settledNext ?_ further free]
      · rfl
      · intro b same y inner reached
        obtain rfl := (handleOf_eq_object same).1
        refine flat a rfl y inner ?_
        simp only [Store.descend?, member, Option.bind_some, reached]
    | computed x property =>
      simp only [found] at came
      obtain ⟨paths, ⟨make, lists⟩, sources⟩ := sourced x property (computed_of_find found).1
      simp only [lists] at came ⊢
      obtain ⟨⟨answer, cells⟩, got, came⟩ := Option.bind_eq_some_iff.mp came
      have same : c ∉ cells → ((Reader.listed paths make).program { store := id } :
          Program κ Value).reading reads' = some ⟨answer, cells⟩ := fun free =>
        Reader.listed_elsewhere got free fun q member => agree q (sources q member)
      cases answer with
      | error e =>
        obtain rfl := Option.some.inj came
        rw [same (not_or.mp (mt List.mem_cons.mpr free)).2]
        rfl
      | ok w =>
        obtain ⟨later, further, rfl⟩ := Option.map_eq_some_iff.mp came
        obtain ⟨free, freeLater⟩ := not_or.mp (mt List.mem_append.mpr free)
        have awayNext : (Handle.detached w).cell? ≠ some c := by rintro ⟨⟩
        have settledNext : s.Settled (.detached w) := by rintro _ _ ⟨⟩
        rw [same (not_or.mp (mt List.mem_cons.mpr free)).2, Option.bind_some]
        dsimp only
        rw [ih awayNext settledNext (by rintro _ ⟨⟩) further freeLater]
        rfl

/-- A path that names no object and did not pass the overwritten cell comes to what it came to. -/
theorem reading_elsewhere (notRoot : c ≠ s.root) (sourced : s.Sourced) {levels : Nat}
    (flat : ¬ s.NamesObject path) (came : s.reading id levels path = some r) (free : c ∉ r.cells) :
    t.reading id levels path = some r := by
  induction levels generalizing path r with
  | zero => cases came
  | succ levels ih =>
    rw [reading, readingOf] at came ⊢
    cases split : Path.segments path with
    | error e => simpa only [split] using came
    | ok keys =>
      simp only [split] at came ⊢
      rw [wrote.root]
      have away : (Handle.object s.root).cell? ≠ some c :=
        fun same => notRoot (Option.some.inj same).symm
      have settled : s.Settled (.object s.root) := by rintro _ _ ⟨⟩
      refine wrote.readingFrom_elsewhere data sourced (fun q flat first => ih flat) away settled ?_
        came free
      rintro _ ⟨⟩ x inner reached object
      rw [Path.eq_pieces_of_segments split] at reached
      exact flat ⟨x, inner, reached, object⟩

/-- Where following keys succeeds before and after, it passes no other cells after. -/
theorem readingFrom_fewer (sourced : s.Sourced) (fewer : ∀ q, Fewer reads reads' q)
    {keys : List String} {place : Handle} (away : place.cell? ≠ some c)
    (came : s.readingFrom id reads path keys place = some r)
    (came' : t.readingFrom id reads' path keys place = some r')
    (fine : r.Succeeds) (fine' : r'.Succeeds) : r'.cells ⊆ r.cells := by
  induction keys generalizing place r r' with
  | nil =>
    obtain rfl := Option.some.inj came'
    exact List.nil_subset _
  | cons key rest ih =>
    unfold readingFrom at came came'
    rw [wrote.find data away] at came'
    cases found : s.find place key with
    | missing =>
      simp only [found] at came'
      obtain rfl := Option.some.inj came'
      exact List.nil_subset _
    | inside next =>
      simp only [found] at came came'
      exact ih ((inside_of_find found).1 ▸ away) came came' fine fine'
    | cell x =>
      simp only [found] at came came'
      obtain ⟨later, further, rfl⟩ := Option.map_eq_some_iff.mp came
      obtain ⟨later', further', rfl⟩ := Option.map_eq_some_iff.mp came'
      refine List.cons_subset_cons x ?_
      by_cases here : x = c
      · subst here
        have leaf := handleOf_leaf fun inner (object : t.content x = .object inner) => by
          cases object.symm.trans wrote.written
        rw [readingFrom_within leaf further']
        exact List.nil_subset _
      · rw [wrote.handleOf here] at further'
        refine ih ?_ further further' fine fine'
        rw [cell?_handleOf]
        exact fun same => here (Option.some.inj same)
    | computed x property =>
      simp only [found] at came came'
      obtain ⟨paths, ⟨make, lists⟩, -⟩ := sourced x property (computed_of_find found).1
      simp only [lists] at came came'
      obtain ⟨⟨answer, cells⟩, got, came⟩ := Option.bind_eq_some_iff.mp came
      obtain ⟨⟨answer', cells'⟩, got', came'⟩ := Option.bind_eq_some_iff.mp came'
      cases answer with
      | error e =>
        obtain rfl := Option.some.inj came
        obtain ⟨_, wrong⟩ := fine
        cases wrong
      | ok w =>
        cases answer' with
        | error e =>
          obtain rfl := Option.some.inj came'
          obtain ⟨_, wrong⟩ := fine'
          cases wrong
        | ok w' =>
          obtain ⟨later, -, rfl⟩ := Option.map_eq_some_iff.mp came
          obtain ⟨later', further', rfl⟩ := Option.map_eq_some_iff.mp came'
          have first : cells' ⊆ cells :=
            Reader.listed_fewer got got' ⟨w, rfl⟩ ⟨w', rfl⟩ fun q _ => fewer q
          have notObject : ∀ a, Handle.detached w' ≠ .object a := nofun
          have behind : later'.cells = [] := readingFrom_within notObject further'
          simp only [Reading.after, behind, List.append_nil]
          exact List.subset_append_of_subset_left _ (List.cons_subset_cons x first)

/-- A path that succeeds before and after passes no other cells after. -/
theorem reading_fewer (notRoot : c ≠ s.root) (sourced : s.Sourced) (levels : Nat) (q : String) :
    Fewer (s.reading id levels) (t.reading id levels) q := by
  induction levels generalizing q with
  | zero => exact fun _ _ came => nomatch came
  | succ levels ih =>
    intro r r' came came' fine fine'
    rw [reading, readingOf] at came came'
    cases split : Path.segments q with
    | error e =>
      simp only [split] at came'
      obtain rfl := Option.some.inj came'
      exact List.nil_subset _
    | ok keys =>
      simp only [split] at came came'
      rw [wrote.root] at came'
      have away : (Handle.object s.root).cell? ≠ some c :=
        fun same => notRoot (Option.some.inj same).symm
      exact wrote.readingFrom_fewer data sourced ih away came came' fine fine'

end Overwrites
end Store
end ReactiveView
