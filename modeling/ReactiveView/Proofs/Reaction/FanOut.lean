import ReactiveView.Proofs.Reaction.Currency
import ReactiveView.Proofs.Reaction.Idling
import ReactiveView.Proofs.Store.Arising

/-! What one write starts. Whoever is registered on the cell is told in turn, and as long as
their effects are idle, each of them is compared with the value that its path has after the
write: it keeps that value and its effect starts once if the two differ, and nothing happens to
it if they do not. -/
namespace ReactiveView

variable {κ : Type} {perform : Performer κ} {id : StoreId} {w₀ w w₁ w' : World κ}
variable {now : ObserverId → Value} {told : List ObserverId}

open Run

/-- The start of the effect of an observer whose path reads as a value, if this value
is new to it. -/
def Observer.firing? (observer : Observer κ) (o : ObserverId) (new : Value) : Option Firing :=
  if observer.value.strictEq new then none else some ⟨o, new, observer.value⟩

/-- The observer with a value if this value is new to it. -/
def Observer.holding (observer : Observer κ) (new : Value) : Observer κ :=
  if observer.value.strictEq new then observer else { observer with value := new }

/-- The effects that start, in order, when observers are told what their paths read as. -/
def World.starts (w : World κ) (now : ObserverId → Value) (told : List ObserverId) : List Firing :=
  told.filterMap fun o => w.observers[o]?.bind fun observer => observer.firing? o (now o)

/-- Some observers have been told what their paths read as in a store, and nothing else was done to
stores and observers. -/
structure Told (id : StoreId) (s : Store (Computed κ)) (now : ObserverId → Value)
    (told : List ObserverId) (w w' : World κ) : Prop where
  store : ∃ t, w'.stores[id]? = some t ∧ s.SameData t
  journal : w'.journal = (w.starts now told).reverse ++ w.journal
  holding : ∀ o ∈ told, ∀ observer, w.observers[o]? = some observer →
    s.read observer.path = .ok (now o) ∧ w'.observers[o]? = some (observer.holding (now o))
  others : ∀ o ∉ told, ∀ observer, w.observers[o]? = some observer →
    w'.observers[o]? = some observer

section Telling

variable {s : Store (Computed κ)}

theorem told_nil (here : w.stores[id]? = some s) : Told id s now [] w w where
  store := ⟨s, here, .refl s⟩
  journal := rfl
  holding := nofun
  others := fun _ _ _ found => found

/-- One after the other: the first is not told again. -/
theorem Told.cons {t : Store (Computed κ)} {o : ObserverId} (first : Told id s now [o] w w₁)
    (same : s.SameData t) (later : Told id t now told w₁ w') (once : o ∉ told)
    (known : ∀ p ∈ told, ∃ observer, w.observers[p]? = some observer) :
    Told id s now (o :: told) w w' := by
  have before : ∀ p ∈ told, ∀ observer, w.observers[p]? = some observer →
      w₁.observers[p]? = some observer := by
    intro p member observer found
    refine first.others p ?_ observer found
    intro single
    exact once (List.mem_singleton.mp single ▸ member)
  refine ⟨?_, ?_, ?_, ?_⟩
  · obtain ⟨u, there, same'⟩ := later.store
    exact ⟨u, there, same.trans same'⟩
  · have starts : w₁.starts now told = w.starts now told := by
      refine List.filterMap_congr fun p member => ?_
      obtain ⟨observer, found⟩ := known p member
      rw [found, before p member observer found]
    have split : w.starts now (o :: told) = w.starts now [o] ++ w.starts now told :=
      List.filterMap_append (l := [o])
    rw [later.journal, first.journal, starts, split, List.reverse_append, List.append_assoc]
  · intro p member observer found
    obtain rfl | further := List.mem_cons.mp member
    · obtain ⟨read, held⟩ := first.holding p (List.mem_singleton_self p) observer found
      exact ⟨read, later.others p once _ held⟩
    · obtain ⟨read, held⟩ := later.holding p further observer (before p further observer found)
      exact ⟨(same.read _).symm.trans read, held⟩
  · intro p notTold observer found
    obtain ⟨different, notFurther⟩ := not_or.mp (mt List.mem_cons.mpr notTold)
    exact later.others p notFurther observer
      (first.others p (mt List.mem_singleton.mp different) observer found)

theorem told_singleton {t : Store (Computed κ)} {o : ObserverId} {observer : Observer κ}
    (found : w.observers[o]? = some observer) (read : s.read observer.path = .ok (now o))
    (there : w'.stores[id]? = some t) (same : s.SameData t)
    (journal : w'.journal = (observer.firing? o (now o)).toList ++ w.journal)
    (held : w'.observers[o]? = some (observer.holding (now o)))
    (others : ∀ p ≠ o, ∀ other, w.observers[p]? = some other → w'.observers[p]? = some other) :
    Told id s now [o] w w' := by
  refine ⟨⟨t, there, same⟩, ?_, ?_, ?_⟩
  · have single : (w.starts now [o]).reverse = (observer.firing? o (now o)).toList := by
      simp only [World.starts, List.filterMap_cons, List.filterMap_nil, found, Option.bind_some]
      cases observer.firing? o (now o) <;> rfl
    rw [journal, single]
  · intro p member other found'
    obtain rfl := List.mem_singleton.mp member
    obtain rfl := Option.some.inj (found.symm.trans found')
    exact ⟨read, held⟩
  · intro p different
    exact others p (mt List.mem_singleton.mpr different)

/-- An update compares the observer with what its path reads as, whatever its idle effect does. -/
theorem updateObserver_told (plain : s.Plain) (here : w.stores[id]? = some s)
    (beside : Beside id w₀ w) {o : ObserverId} {observer : Observer κ}
    (found : w.observers[o]? = some observer) (idle : observer.effect.Idle perform id w₀)
    (reads : ∀ v, s.read observer.path = .ok v → now o = v)
    (ran : updateObserver perform id o w = some (.ok (), w')) :
    Told id s now [o] w w' ∧ Beside id w₀ w' := by
  obtain ⟨new, _, known, read, updated⟩ := updateObserver_eq_ok plain here ran
  obtain rfl := known observer found
  obtain rfl := reads new read
  obtain ⟨equal, rfl⟩ | ⟨differs, fired⟩ := updated
  · refine ⟨told_singleton found read here (.refl s) ?_ ?_ fun _ _ _ found => found, beside⟩
    · rw [Observer.firing?, if_pos equal]
      rfl
    · rw [Observer.holding, if_pos equal, found]
  · have differs := Bool.eq_false_iff.mp differs
    have held : Beside id w₀ { w with
        observers := w.observers.modify o fun observer => { observer with value := now o }
        journal := ⟨o, now o, observer.value⟩ :: w.journal } := beside.congr rfl rfl
    have left := idle (now o) observer.value _ _ _ held fired
    obtain ⟨t, there, same⟩ := left.stores id s here
    refine ⟨told_singleton found read there same ?_ (left.observers o _ ?_) ?_, held.leaves left⟩
    · rw [left.journal, Observer.firing?, if_neg differs]
      rfl
    · rw [Observer.holding, if_neg differs, Array.getElem?_modify, if_pos rfl, found]
      rfl
    · intro p other observer' found'
      refine left.observers p observer' ?_
      rw [Array.getElem?_modify, if_neg other.symm, found']

/-- A pass tells all its observers, each of them once. -/
theorem updateAll_told (plain : s.Plain) (here : w.stores[id]? = some s) (beside : Beside id w₀ w)
    (once : told.Nodup) (known : ∀ o ∈ told, ∃ observer, w.observers[o]? = some observer ∧
      observer.effect.Idle perform id w₀ ∧ ∀ v, s.read observer.path = .ok v → now o = v)
    (ran : told.forM (updateObserver perform id) w = some (.ok (), w')) :
    Told id s now told w w' ∧ Beside id w₀ w' := by
  induction told generalizing w s with
  | nil =>
    obtain ⟨-, rfl⟩ := Prod.mk.inj (Option.some.inj ran)
    exact ⟨told_nil here, beside⟩
  | cons o rest ih =>
    obtain ⟨_, w₁, first, ran⟩ := bind_eq_ok ran
    obtain ⟨notAgain, once⟩ := List.nodup_cons.mp once
    obtain ⟨observer, found, idle, reads⟩ := known o List.mem_cons_self
    obtain ⟨told, beside⟩ := updateObserver_told plain here beside found idle reads first
    obtain ⟨t, there, same⟩ := told.store
    have later : Told id t now rest w₁ w' ∧ Beside id w₀ w' := by
      refine ih (same.plain plain) there beside once ?_ ran
      intro p member
      obtain ⟨other, found, idle, reads⟩ := known p (List.mem_cons_of_mem _ member)
      refine ⟨other, told.others p ?_ other found, idle, ?_⟩
      · intro single
        exact notAgain (List.mem_singleton.mp single ▸ member)
      · intro v read
        exact reads v ((same.read _).symm.trans read)
    refine ⟨told.cons same later.1 notAgain ?_, later.2⟩
    intro p member
    obtain ⟨other, found, -⟩ := known p (List.mem_cons_of_mem _ member)
    exact ⟨other, found⟩

end Telling

/-- What the path of an observer reads as in a store. -/
def World.seen (w : World κ) (s : Store (Computed κ)) (o : ObserverId) : Value :=
  (w.observers[o]?.bind fun observer => (s.read observer.path).toOption).getD .null

section Writing

variable {s : Store (Computed κ)} {allowed : Computed κ → Prop} {path : String} {c : CellId}
  {v : Value}

end Writing

/-- Observers come with effects of some kind and go again, and nothing is written. -/
def Deed.Watching (kind : Effect κ → Prop) : Deed κ → Prop
  | .watch _ _ effect => kind effect
  | .assign _ _ => False
  | .drop _ => True

/-- A store that holds data only and has come about, and observers with effects of some kind. -/
structure Settled (allowed : Computed κ → Prop) (kind : Effect κ → Prop) (id : StoreId)
    (w : World κ) : Prop where
  store : ∃ s, w.stores[id]? = some s ∧ s.Plain ∧ s.Arises allowed w.observers.size
  effects : ∀ (o : ObserverId) observer, w.observers[o]? = some observer → kind observer.effect

section Settling

variable {allowed : Computed κ → Prop} {kind : Effect κ → Prop}

theorem Deed.run_settled {deed : Deed κ} (watching : deed.Watching kind)
    (settled : Settled allowed kind id w) (ran : deed.run perform id w = some (.ok (), w')) :
    Settled allowed kind id w' := by
  obtain ⟨s, here, plain, arises⟩ := settled.store
  cases deed with
  | watch name path effect =>
    obtain ⟨o, w₁, made, named⟩ := bind_eq_ok ran
    obtain ⟨initial, -, rfl, rfl⟩ := observe_eq_ok plain here made
    obtain ⟨-, rfl⟩ := Prod.mk.inj (Option.some.inj named)
    have same := Store.SameData.track (some w.observers.size) (s.cellsAt path) s
    refine ⟨⟨_, World.stores_withStore here _, same.plain plain, ?_⟩, ?_⟩
    · simp only [World.observers_naming, World.observing, Array.size_push]
      exact (arises.more (Nat.le_succ _)).track (Nat.lt_succ_self _) _
    · intro o observer found
      simp only [World.observers_naming, World.observing, Array.getElem?_push] at found
      split at found
      · obtain rfl := Option.some.inj found
        exact watching
      · exact settled.effects o observer found
  | assign path v => cases watching
  | drop name =>
    obtain ⟨-, rfl⟩ := Prod.mk.inj (Option.some.inj ran)
    exact ⟨⟨s, here, plain, arises⟩, settled.effects⟩

theorem Deed.all_settled {deeds : List (Deed κ)} (watching : ∀ deed ∈ deeds, deed.Watching kind)
    (settled : Settled allowed kind id w)
    (ran : deeds.forM (Deed.run perform id) w = some (.ok (), w')) :
    Settled allowed kind id w' := by
  induction deeds generalizing w with
  | nil =>
    obtain ⟨-, rfl⟩ := Prod.mk.inj (Option.some.inj ran)
    exact settled
  | cons deed rest ih =>
    obtain ⟨_, w₁, done, ran⟩ := bind_eq_ok ran
    refine ih (fun d member => watching d (List.mem_cons_of_mem _ member)) ?_ ran
    exact Deed.run_settled (watching deed List.mem_cons_self) settled done

theorem settled_start {data : Value} (canonical : data.Canonical) :
    Settled allowed kind 0 { stores := #[.ofValue data] } :=
  ⟨⟨_, rfl, Store.content_ofValue data, .ofValue canonical⟩, nofun⟩

end Settling

def fannedData : Value :=
  .object [("a", .string "x"), ("b", .object [("c", .string "y")])]

/-- An effect that logs the new value. -/
def noting : Effect Empty :=
  .code fun new _ => .call (.log new) fun _ => .done (.ok ())

/-- Observers of an object, of a member, of a member to come and of something else; one
of them goes. -/
def fanned : List (Deed Empty) :=
  [.watch "outer" "b" noting, .watch "gone" "b" noting, .watch "inner" "b.c" noting,
    .watch "later" "b.d" noting, .watch "beside" "a" noting, .drop "gone"]

/-- User code may call the library, and there is no host. -/
def unhosted : Performer Empty :=
  performer (fun _ _ command => nomatch command) 1

theorem fannedData_canonical : fannedData.Canonical :=
  ⟨.cons (by decide) (.cons (by decide) .nil), trivial,
    ⟨.cons (by decide) .nil, trivial, trivial⟩, trivial⟩

theorem fanned_settled {w : World Empty} (ran : fanned.forM (Deed.run unhosted 0)
    { stores := #[.ofValue fannedData] } = some (.ok (), w)) :
    Settled (fun _ => False) (· = noting) 0 w :=
  Deed.all_settled (by simp [fanned, Deed.Watching]) (settled_start fannedData_canonical) ran

theorem noting_idle {w : World Empty} : noting.Idle unhosted id w :=
  Effect.Quiet.idle fun _ _ => ⟨trivial, fun _ => trivial⟩

end ReactiveView
