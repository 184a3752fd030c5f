import ReactiveView.Proofs.Session.Dormancy

/-! Registries as ordered sets. The dead stay in the list of a registry until some snapshot of it
removes them, but at any time the living among its entries are the living ones of all that were ever
passed to it, in the order in which they first were. The numbers of observers follow the order of
their construction. -/
namespace ReactiveView

open Run

variable {κ : Type}

namespace Registry

/-- What has been passed to a registry, one after the other, and what has become of it. In between
snapshots are taken, other observers are made, and some of those that were passed die for good. -/
inductive Course : (ObserverId → Bool) → List ObserverId → Registry → Prop
  | start {alive : ObserverId → Bool} : Course alive [] {}
  | depend {alive : ObserverId → Bool} {passed : List ObserverId} {r : Registry} {o : ObserverId} :
      Course alive passed r → alive o = true → Course alive (passed ++ [o]) (r.depend o).2
  | snapshot {alive : ObserverId → Bool} {passed : List ObserverId} {r : Registry} :
      Course alive passed r → Course alive passed (r.prune alive)
  | deaths {alive alive' : ObserverId → Bool} {passed : List ObserverId} {r : Registry} :
      Course alive passed r → (∀ o ∈ passed, alive' o = true → alive o = true) →
        Course alive' passed r

/-- The entries stand in the order in which they were first passed, and no living observer
is missing. -/
structure Enlists (alive : ObserverId → Bool) (passed : List ObserverId) (r : Registry) : Prop where
  known : ∀ o ∈ r.entries, o ∈ passed
  listed : ∀ o ∈ passed, alive o = true → o ∈ r.entries
  ordered : r.entries.Pairwise fun o p => passed.idxOf o < passed.idxOf p

variable {alive alive' : ObserverId → Bool} {passed : List ObserverId} {r : Registry}
  {o : ObserverId}

theorem enlists_start : Enlists alive [] {} :=
  ⟨nofun, nofun, .nil⟩

theorem mem_ids : o ∈ r.ids alive ↔ o ∈ r.entries ∧ alive o = true :=
  List.mem_filter

namespace Enlists

variable (enlists : Enlists alive passed r)
include enlists

/-- What is passed later changes nothing of the order. -/
theorem ordered_append (more : List ObserverId) :
    r.entries.Pairwise fun o p => (passed ++ more).idxOf o < (passed ++ more).idxOf p := by
  refine enlists.ordered.imp_of_mem fun {o p} first second before => ?_
  rwa [List.idxOf_append_of_mem (enlists.known o first),
    List.idxOf_append_of_mem (enlists.known p second)]

/-- A living observer that is not among the entries has never been passed, so it comes last. -/
theorem depend (living : alive o = true) : Enlists alive (passed ++ [o]) (r.depend o).2 := by
  refine ⟨fun p member => ?_, fun p member lives => ?_, ?_⟩
  · exact List.mem_append.mpr ((mem_entries_depend.mp member).imp (enlists.known p)
      fun same => List.mem_singleton.mpr same)
  · exact mem_entries_depend.mpr ((List.mem_append.mp member).imp
      (fun before => enlists.listed p before lives) List.mem_singleton.mp)
  · unfold Registry.depend
    split
    · exact enlists.ordered_append [o]
    · rename_i unlisted
      have new : o ∉ passed := fun member => unlisted (enlists.listed o member living)
      refine List.pairwise_append.mpr ⟨enlists.ordered_append [o], List.pairwise_singleton _ _, ?_⟩
      intro p entry _ single
      obtain rfl := List.mem_singleton.mp single
      rw [List.idxOf_append_of_mem (enlists.known p entry), List.idxOf_append_of_notMem new,
        List.idxOf_cons_self]
      exact Nat.lt_of_lt_of_le (List.idxOf_lt_length_of_mem (enlists.known p entry))
        (Nat.le_add_right _ _)

theorem snapshot : Enlists alive passed (r.prune alive) where
  known o entry := enlists.known o (List.mem_filter.mp entry).1
  listed o member lives := List.mem_filter.mpr ⟨enlists.listed o member lives, lives⟩
  ordered := enlists.ordered.filter alive

theorem deaths (final : ∀ o ∈ passed, alive' o = true → alive o = true) :
    Enlists alive' passed r where
  known := enlists.known
  listed o member lives := enlists.listed o member (final o member lives)
  ordered := enlists.ordered

theorem mem_ids_iff : o ∈ r.ids alive ↔ o ∈ passed ∧ alive o = true :=
  ⟨fun member => ⟨enlists.known o (mem_ids.mp member).1, (mem_ids.mp member).2⟩,
    fun ⟨member, lives⟩ => mem_ids.mpr ⟨enlists.listed o member lives, lives⟩⟩

end Enlists

theorem Course.enlists (course : Course alive passed r) : Enlists alive passed r := by
  induction course with
  | start => exact enlists_start
  | depend _ living ih => exact ih.depend living
  | snapshot _ ih => exact ih.snapshot
  | deaths _ final ih => exact ih.deaths final

/-- For an observer that lives, the dead among the entries make no difference. -/
theorem depend_fst_of_alive (living : alive o = true) :
    (r.depend o).1 = false ↔ o ∈ r.ids alive := by
  rw [depend_fst, decide_eq_false_iff_not, not_not, mem_ids]
  exact (and_iff_left living).symm

end Registry

namespace World

variable {w w' : World κ} {o : ObserverId}

/-- Observers that have died by the end of a passage are dead for good. -/
theorem Passage.alive_before (passage : Passage w w') (old : o < w.observers.size)
    (living : w'.observerAlive o = true) : w.observerAlive o = true := by
  refine Bool.not_eq_false _ ▸ fun dead => ?_
  have dormant := ((dormant_of_dead w).passage passage).1
  exact Bool.false_ne_true ((dormant.observerAlive ⟨old, dead⟩).symm.trans living)

/-- Whatever a session does is in the course of each registry. -/
theorem Passage.course (passage : Passage w w') {passed : List ObserverId} {r : Registry}
    (course : Registry.Course w.observerAlive passed r) (old : ∀ o ∈ passed, o < w.observers.size) :
    Registry.Course w'.observerAlive passed r :=
  course.deaths fun o member => passage.alive_before (old o member)

end World

section Numbers

variable {perform : Performer κ} {w w' : World κ} {made : List ObserverId}

/-- Observers in the order in which their construction began, in whatever stores. One may
be made while the path of another one is read, and in between anything may happen that
loses no observers. -/
inductive Made (perform : Performer κ) (w : World κ) : List ObserverId → World κ → Prop
  | start : Made perform w [] w
  | meanwhile {made : List ObserverId} {w₁ w₂ : World κ} : Made perform w made w₁ →
      w₁.observers.size ≤ w₂.observers.size → Made perform w made w₂
  | observed {made : List ObserverId} {w₁ w₂ : World κ} {store : StoreId} {path : String}
      {effect : Effect κ} {o : ObserverId} : Made perform w made w₁ →
      observe perform store path effect w₁ = some (.ok o, w₂) → Made perform w (made ++ [o]) w₂
  /-- An observer has its number, and its path is going to be read. -/
  | begun {made : List ObserverId} {w₁ w₂ : World κ} (observer : Observer κ) :
      Made perform w made w₁ →
      w₂.observers = w₁.observers.push observer → Made perform w (made ++ [w₁.observers.size]) w₂

/-- An observer is numbered by how many there were before. -/
theorem observe_number (calls : ∀ c, Keeps World.Passage (perform c)) {store : StoreId}
    {path : String} {effect : Effect κ} {o : ObserverId}
    (observed : observe perform store path effect w = some (.ok o, w')) :
    o = w.observers.size ∧ o < w'.observers.size := by
  obtain ⟨-, failed⟩ | ⟨observer, inner, passage, rfl, numbered⟩ := observe_passage calls observed
  · exact (failed o rfl).elim
  · have grown := passage.sizes.2
    rw [Array.size_push] at grown
    exact ⟨numbered o rfl, numbered o rfl ▸ grown⟩

theorem Made.numbers (calls : ∀ c, Keeps World.Passage (perform c))
    (course : Made perform w made w') :
    made.Pairwise (· < ·) ∧ ∀ o ∈ made, o < w'.observers.size := by
  have append : ∀ {made : List ObserverId} {o : ObserverId}, made.Pairwise (· < ·) →
      (∀ p ∈ made, p < o) → (made ++ [o]).Pairwise (· < ·) := fun rising below =>
    List.pairwise_append.mpr ⟨rising, List.pairwise_singleton _ _,
      fun p member _ single => List.mem_singleton.mp single ▸ below p member⟩
  induction course with
  | start => exact ⟨.nil, nofun⟩
  | meanwhile _ sizes ih => exact ⟨ih.1, fun o member => Nat.lt_of_lt_of_le (ih.2 o member) sizes⟩
  | observed _ observed ih =>
    obtain ⟨rfl, inside⟩ := observe_number calls observed
    refine ⟨append ih.1 ih.2, fun p member => ?_⟩
    obtain before | single := List.mem_append.mp member
    · exact Nat.lt_trans (ih.2 p before) inside
    · exact List.mem_singleton.mp single ▸ inside
  | begun observer _ grown ih =>
    refine ⟨append ih.1 ih.2, fun p member => ?_⟩
    rw [grown, Array.size_push]
    obtain before | single := List.mem_append.mp member
    · exact Nat.lt_succ_of_lt (ih.2 p before)
    · exact Nat.lt_succ_of_le (Nat.le_of_eq (List.mem_singleton.mp single))

end Numbers

/-- At any point of its course a registry lists the living ones of all observers that were passed to
it, each once, in the order in which they were first passed. A living observer that is passed is
refused exactly if it is listed. A snapshot gives this list and leaves it as it is, though it
removes the dead, and the size is the length of this list. And observers that are made are numbered
upwards, in whatever stores. -/
theorem registry_ordered_set {alive : ObserverId → Bool} {passed : List ObserverId} {r : Registry}
    (course : Registry.Course alive passed r) {perform : Performer κ}
    (calls : ∀ c, Keeps World.Passage (perform c)) {w w' : World κ} {made : List ObserverId}
    (construction : Made perform w made w') :
    ((∀ o, o ∈ r.ids alive ↔ o ∈ passed ∧ alive o = true) ∧ (r.ids alive).Nodup ∧
      (r.ids alive).Pairwise fun o p => passed.idxOf o < passed.idxOf p) ∧
    (∀ o, alive o = true → ((r.depend o).1 = false ↔ o ∈ r.ids alive)) ∧
    ((r.prune alive).entries = r.ids alive ∧ (r.prune alive).ids alive = r.ids alive) ∧
    r.size alive = (r.ids alive).length ∧
    made.Pairwise (· < ·) := by
  have ordered := course.enlists.ordered.filter alive
  refine ⟨⟨fun o => course.enlists.mem_ids_iff, ?_, ordered⟩, fun o => Registry.depend_fst_of_alive,
    ⟨rfl, r.ids_prune alive⟩, List.countP_eq_length_filter, (construction.numbers calls).1⟩
  exact ordered.imp fun before same => Nat.ne_of_lt before (congrArg passed.idxOf same)

open Session

/-- Two observers, and a registry to which both are passed, the later one twice. -/
def enrolment : List Step :=
  [.mk (some "data") (.newStore (.object [("level", .null)])),
    .mk (some "first") (.store "data" (.watch "level" [])),
    .mk (some "second") (.store "data" (.watch "level" [])),
    .mk (some "roll") .newRegistry,
    .mk none (.depend "roll" "second"),
    .mk none (.depend "roll" "first"),
    .mk none (.depend "roll" "second")]

/-- One observer after the other, each in a store of its own. -/
def twoStores : World Step :=
  { stores := #[.ofValue (.object [("level", .null)]), .ofValue (.object [("level", .null)])] }

/-- The later observer comes first in the registry. When it has died it is still an entry, but it is
not listed any more. -/
theorem roll_called : ∃ r made w',
    (after {} enrolment).names.registries = [("roll", r)] ∧ r.entries = [1, 0] ∧
    (let later := after (after {} enrolment) [.mk none (.dropObserver "second")];
      1 ∉ r.ids later.observerAlive ∧
        (r.prune later.observerAlive).entries = r.ids later.observerAlive ∧
      (r.depend 0).1 = false) ∧
    Made (performer Step.host 3) twoStores made w' ∧ made = [0, 1] ∧ made.Pairwise (· < ·) := by
  let w := after {} enrolment
  let later := after w [.mk none (.dropObserver "second")]
  have alive : w.observerAlive 0 = true ∧ w.observerAlive 1 = true ∧ w.observers.size = 2 := by
    decide +kernel
  have gone : later.observerAlive 0 = true ∧ later.observerAlive 1 = false := by decide +kernel
  have before : Registry.Course w.observerAlive [1, 0, 1] ⟨[1, 0]⟩ :=
    ((Registry.Course.start.depend alive.2.1).depend alive.1).depend alive.2.1
  have course : Registry.Course later.observerAlive [1, 0, 1] ⟨[1, 0]⟩ :=
    (passage_after w _).course before (by rw [alive.2.2]; decide)
  have made : ((observe (performer Step.host 3) 0 "level" (.code fun _ _ => pure ()) twoStores).bind
      fun first =>
        (observe (performer Step.host 3) 1 "level" (.code fun _ _ => pure ()) first.2).map
        fun second => (first.1.toOption, second.1.toOption)) = some (some 0, some 1) := by
    decide +kernel
  obtain ⟨⟨first, w₁⟩, observed, made⟩ := Option.bind_eq_some_iff.mp made
  obtain ⟨⟨second, w₂⟩, observed', same⟩ := Option.map_eq_some_iff.mp made
  cases first with
  | error e => cases same
  | ok o =>
    cases second with
    | error e => cases same
    | ok p =>
      obtain ⟨rfl, rfl⟩ : o = 0 ∧ p = 1 := by simpa [Except.toOption] using same
      have construction := (Made.start.observed observed).observed observed'
      obtain ⟨⟨listed, -, -⟩, again, snapshot, -, rising⟩ :=
        registry_ordered_set course (passage_calls 3) construction
      refine ⟨⟨[1, 0]⟩, _, w₂, by decide +kernel, rfl, ⟨fun member => ?_, snapshot.1, ?_⟩,
        construction, rfl, rising⟩
      · exact Bool.false_ne_true (gone.2.symm.trans ((listed 1).mp member).2)
      · exact (again 0 gone.1).mpr ((listed 0).mpr ⟨by decide, gone.1⟩)

end ReactiveView
