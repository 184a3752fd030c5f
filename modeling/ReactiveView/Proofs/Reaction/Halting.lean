import ReactiveView.Proofs.Reaction.FanOut
import ReactiveView.Proofs.Reaction.ReadBack

/-! What a failed write leaves behind. Either the data refused the path and nothing happened at all,
or the value was written and one of the observers of the cell failed: those before it have been
updated, and those behind it have not been reached. -/
namespace ReactiveView

variable {κ : Type} {perform : Performer κ} {id : StoreId} {effects : Effect κ → Prop}
variable {w₀ w w₁ w' : World κ} {s : Store (Computed κ)} {o : ObserverId} {e : BindingError}
variable {now : ObserverId → Value} {before after : List ObserverId}

open Run

/-- An observer fails in one of two ways. Its path does not read, and it stays as it is; or its path
reads as a value new to it, which it keeps, and its effect was started and failed. -/
inductive Observer.Fails (observer : Observer κ) (s : Store (Computed κ)) (o : ObserverId)
    (e : BindingError) : List Firing → Observer κ → Prop
  | unread : s.read observer.path = .error e → Fails observer s o e [] observer
  | fired {new : Value} : s.read observer.path = .ok new → observer.value.strictEq new = false →
      Fails observer s o e [⟨o, new, observer.value⟩] { observer with value := new }

theorem Observer.Fails.congr {observer left : Observer κ} {started : List Firing}
    {t : Store (Computed κ)} (fails : observer.Fails s o e started left)
    (same : t.read observer.path = s.read observer.path) : observer.Fails t o e started left := by
  cases fails with
  | unread unread => exact .unread (same.trans unread)
  | fired read differs => exact .fired (same.trans read) differs

/-- Some observers have been told what their paths read as in a store, then one has failed, and
nothing else was done to stores and observers. -/
structure Halted (id : StoreId) (s : Store (Computed κ)) (now : ObserverId → Value)
    (before : List ObserverId) (o : ObserverId) (e : BindingError) (w w' : World κ) : Prop where
  store : ∃ t, w'.stores[id]? = some t ∧ s.SameData t
  told : ∀ p ∈ before, ∀ observer, w.observers[p]? = some observer →
    s.read observer.path = .ok (now p) ∧ w'.observers[p]? = some (observer.holding (now p))
  failed : ∃ observer started left, w.observers[o]? = some observer ∧
    observer.Fails s o e started left ∧ w'.observers[o]? = some left ∧
    w'.journal = started ++ (w.starts now before).reverse ++ w.journal
  others : ∀ p ∉ before, p ≠ o → ∀ observer, w.observers[p]? = some observer →
    w'.observers[p]? = some observer

/-- Only the data of the store, the observers and what they started count. -/
theorem Halted.congr {t : Store (Computed κ)} {w₂ : World κ}
    (halted : Halted id s now before o e w₁ w₂) (same : s.SameData t)
    (there : w'.stores[id]? = some t) (start : w.observers = w₁.observers ∧ w.journal = w₁.journal)
    (finish : w'.observers = w₂.observers ∧ w'.journal = w₂.journal) :
    Halted id t now before o e w w' := by
  have starts : w.starts now before = w₁.starts now before := by
    simp only [World.starts, start.1]
  refine ⟨⟨t, there, .refl t⟩, ?_, ?_, ?_⟩
  · intro p member observer found
    obtain ⟨read, held⟩ := halted.told p member observer (start.1 ▸ found)
    exact ⟨(same.read _).trans read, finish.1 ▸ held⟩
  · obtain ⟨observer, started, left, found, fails, held, journal⟩ := halted.failed
    refine ⟨observer, started, left, start.1 ▸ found, fails.congr (same.read _),
      finish.1 ▸ held, ?_⟩
    rw [finish.2, journal, starts, start.2]
  · intro p notBefore distinct observer found
    exact finish.1 ▸ halted.others p notBefore distinct observer (start.1 ▸ found)

/-- A failed update has not read the path of its observer, or it has started the effect. -/
theorem updateObserver_eq_error (plain : s.Plain) (here : w.stores[id]? = some s)
    (ran : updateObserver perform id o w = some (.error e, w')) :
    ∃ observer, (∀ found, w.observers[o]? = some found → found = observer) ∧
      (s.read observer.path = .error e ∧ w' = w ∨
        ∃ new, s.read observer.path = .ok new ∧ observer.value.strictEq new = false ∧
          observer.effect.fire perform new observer.value { w with
            observers := w.observers.modify o fun observer => { observer with value := new }
            journal := ⟨o, new, observer.value⟩ :: w.journal } = some (.error e, w')) := by
  obtain ⟨observer, known, update⟩ := updateObserver_run perform plain here o
  refine ⟨observer, known, ?_⟩
  rw [update] at ran
  split at ran
  · rename_i e' unread
    cases ran
    exact .inl ⟨unread, rfl⟩
  · rename_i new read
    split at ran
    · cases ran
    · rename_i differs
      exact .inr ⟨new, read, Bool.eq_false_iff.mpr differs, ran⟩

/-- The failure of an observer with an idle effect is no more than its own. -/
theorem updateObserver_halted (plain : s.Plain) (here : w.stores[id]? = some s)
    (beside : Beside id w₀ w) {observer : Observer κ} (found : w.observers[o]? = some observer)
    (idle : observer.effect.Idle perform id w₀)
    (ran : updateObserver perform id o w = some (.error e, w')) :
    Halted id s now [] o e w w' := by
  obtain ⟨_, known, failed⟩ := updateObserver_eq_error plain here ran
  obtain rfl := known observer found
  obtain ⟨unread, rfl⟩ | ⟨new, read, differs, fired⟩ := failed
  · refine ⟨⟨s, here, .refl s⟩, nofun, ?_, fun _ _ _ _ found => found⟩
    exact ⟨observer, [], observer, found, .unread unread, found, rfl⟩
  · have held : Beside id w₀ { w with
        observers := w.observers.modify o fun observer => { observer with value := new }
        journal := ⟨o, new, observer.value⟩ :: w.journal } := beside.congr rfl rfl
    have left := idle new observer.value _ _ _ held fired
    refine ⟨left.stores id s here, nofun, ?_, ?_⟩
    · refine ⟨observer, _, _, found, .fired read differs, left.observers o _ ?_, left.journal⟩
      rw [Array.getElem?_modify, if_pos rfl, found]
      rfl
    · intro p _ distinct other found'
      refine left.observers p other ?_
      rw [Array.getElem?_modify, if_neg distinct.symm, found']

/-- Telling some observers and then failing at the next one. -/
theorem Told.halted {t : Store (Computed κ)} (first : Told id s now before w w₁)
    (same : s.SameData t) (later : Halted id t now [] o e w₁ w') (once : o ∉ before)
    (known : ∃ observer, w.observers[o]? = some observer) : Halted id s now before o e w w' := by
  obtain ⟨observer, found⟩ := known
  have unmoved := first.others o once observer found
  refine ⟨?_, ?_, ?_, ?_⟩
  · obtain ⟨u, there, same'⟩ := later.store
    exact ⟨u, there, same.trans same'⟩
  · intro p member other found'
    obtain ⟨read, held⟩ := first.holding p member other found'
    refine ⟨read, later.others p List.not_mem_nil ?_ _ held⟩
    rintro rfl
    exact once member
  · obtain ⟨_, started, left, found', fails, held, journal⟩ := later.failed
    obtain rfl := Option.some.inj (unmoved.symm.trans found')
    refine ⟨observer, started, left, found, fails.congr (same.read _).symm, held, ?_⟩
    have nobody : (w₁.starts now []).reverse = [] := rfl
    rw [journal, nobody, List.append_nil, first.journal, List.append_assoc]
  · intro p notBefore distinct other found'
    exact later.others p List.not_mem_nil distinct other (first.others p notBefore other found')

/-- A pass that fails at an observer, as it is carried out: the updates before it went well, and its
own update failed. -/
def HaltsAt (perform : Performer κ) (id : StoreId) (before : List ObserverId) (o : ObserverId)
    (e : BindingError) (w w' : World κ) : Prop :=
  ∃ w₁, before.forM (updateObserver perform id) w = some (.ok (), w₁) ∧
    updateObserver perform id o w₁ = some (.error e, w')

theorem HaltsAt.halted (halts : HaltsAt perform id before o e w w') (plain : s.Plain)
    (here : w.stores[id]? = some s) (beside : Beside id w₀ w) (once : (before ++ o :: after).Nodup)
    (known : ∀ p ∈ before ++ o :: after, ∃ observer, w.observers[p]? = some observer ∧
      observer.effect.Idle perform id w₀ ∧ ∀ v, s.read observer.path = .ok v → now p = v) :
    Halted id s now before o e w w' := by
  obtain ⟨w₁, went, failed⟩ := halts
  obtain ⟨onceBefore, -, apart⟩ := List.nodup_append.mp once
  have notBefore : o ∉ before := fun member => apart o member o List.mem_cons_self rfl
  obtain ⟨told, beside'⟩ := updateAll_told plain here beside onceBefore
    (fun p member => known p (List.mem_append_left _ member)) went
  obtain ⟨t, there, same⟩ := told.store
  obtain ⟨observer, found, idle, -⟩ := known o (List.mem_append_right _ List.mem_cons_self)
  have unmoved := told.others o notBefore observer found
  exact told.halted same
    (updateObserver_halted (same.plain plain) there beside' unmoved idle failed)
    notBefore ⟨observer, found⟩

theorem notify_eq_error {told : List ObserverId}
    (ran : notify perform id told w = some (.error e, w')) :
    ∃ before o after w₁, told = before ++ o :: after ∧
      HaltsAt perform id before o e { w with pins := told.map .observer ++ w.pins } w₁ ∧
      w' = { w₁ with pins := w.pins } := by
  obtain ⟨w₁, answer, rfl⟩ := pinning_eq_some ran
  obtain ⟨before, o, after, w₂, split, went, failed⟩ := forM_eq_error answer
  exact ⟨before, o, after, w₁, split, ⟨w₂, went, failed⟩, rfl⟩

/-- A write that fails, among observers that write nothing. Either the data refused the path,
because it is blank, breaks off or ends at a value without such a member, and the world is as it
was. Or the path has a cell, which holds the value now, while no other cell has changed; and of the
live observers listed there, in their order, those before one have been updated, the update of this
one failed with the error of the write, and with that the pass was over. If the effects are idle,
this is also all that has happened to observers: the first ones are compared with what their paths
read as, the one has failed to read or in its effect, and those behind it are as they were. -/
theorem failed_write (harmless : Harmless perform id effects) (watchers : Watchers effects w)
    {allowed : Computed κ → Prop} (here : w.stores[id]? = some s)
    (arises : s.Arises allowed w.observers.size) (plain : s.Plain) {path : String} {v : Value}
    (ran : Scope.assign perform { store := id } path v w = some (.error e, w')) :
    s.snapshot.Refuses path e ∧ w' = w ∨
    ∃ (c : CellId) (before after : List ObserverId) (o : ObserverId) (t : Store (Computed κ)),
      s.cellAt? path = some c ∧ w'.stores[id]? = some t ∧ s.Overwrites t c v ∧
      (∀ q, Scope.resolve perform { store := id } q w' = some (t.read q, w')) ∧
      s.dependents? w.observerAlive path = some (before ++ o :: after) ∧
      (∃ w₁, HaltsAt perform id before o e
        (w.passing id (s.overwrite c v w.observerAlive) (before ++ o :: after)) w₁ ∧
        w' = { w₁ with pins := w.pins }) ∧
      ((∀ effect, effects effect → effect.Idle perform id w) →
        ∃ now, Halted id t now before o e w w') := by
  have formed := arises.formed
  have tree : s.Tree := ⟨formed.sound, plain, formed.branching⟩
  obtain refused | ⟨c, backed, -, notified⟩ := Scope.assign_eq_error perform tree here ran
  · exact .inl refused
  · right
    obtain ⟨inside, -⟩ := Store.cellAt?_sound formed.sound backed
    have wrote := Store.overwrites_overwrite inside v w.observerAlive
    have written := wrote.plain plain
    have there := World.stores_withStore here (s.overwrite c v w.observerAlive)
    obtain ⟨⟨t, after, same⟩, -⟩ :=
      undisturbed_notify harmless _ _ _ _ notified _ there written watchers
    obtain ⟨before, o, rest, w₁, split, halts, rfl⟩ := notify_eq_error notified
    rw [split] at halts
    refine ⟨c, before, rest, o, t, backed, after, wrote.sameData same, ?_, ?_, ⟨w₁, halts, rfl⟩, ?_⟩
    · intro q
      exact Scope.resolve_untracked perform (same.plain written) after q
    · rw [Store.dependents?, backed, ← split]
      rfl
    · intro idle
      have beside : Beside id w
          (w.passing id (s.overwrite c v w.observerAlive) (before ++ o :: rest)) :=
        (Beside.withStore here written).congr rfl rfl
      have once : (before ++ o :: rest).Nodup := split ▸ (formed.distinct c).filter _
      have halted : Halted id (s.overwrite c v w.observerAlive)
          (w.seen (s.overwrite c v w.observerAlive)) before o e
          (w.passing id (s.overwrite c v w.observerAlive) (before ++ o :: rest)) w₁ := by
        refine halts.halted written there beside once ?_
        intro p member
        rw [← split] at member
        have found := Array.getElem?_eq_getElem (formed.listed c p (List.mem_filter.mp member).1)
        refine ⟨_, found, idle _ (watchers p _ found), ?_⟩
        intro u read
        simp only [World.seen, found, Option.bind_some, read, Except.toOption, Option.getD_some]
      exact ⟨_, halted.congr same after ⟨rfl, rfl⟩ ⟨rfl, rfl⟩⟩

/-- An effect that fails with a message of its own. -/
def refusing : Effect Empty :=
  .code fun new _ => .fail (.handler "check" new.display)

/-- The second of three observers that a write to the object tells has an effect that fails. -/
def checked : List (Deed Empty) :=
  [.watch "outer" "b" noting, .watch "inner" "b.c" refusing, .watch "later" "b.d" noting]

def replaced : Value :=
  .object [("c", .string "z"), ("d", .string "n")]

theorem harmless_checked :
    Harmless unhosted id fun effect => effect = noting ∨ effect = refusing := by
  rintro effect (rfl | rfl) new old w r w' ran
  · have logged : w' = { w with log := new :: w.log } := (Prod.mk.inj (Option.some.inj ran)).2.symm
    subst logged
    exact undisturbed_of_same rfl fun watchers => watchers
  · obtain ⟨-, rfl⟩ := Prod.mk.inj (Option.some.inj ran)
    exact composes_undisturbed.refl w

theorem checked_halted : ∃ (w w' : World Empty) (s : Store (Computed Empty)),
    checked.forM (Deed.run unhosted 0) { stores := #[.ofValue fannedData] } = some (.ok (), w) ∧
    Scope.assign unhosted { store := 0 } "b" replaced w = some (.error (.handler "check" "z"), w') ∧
    s.dependents? w.observerAlive "b" = some [0, 1, 2] ∧
    w'.journal.map (fun f => (f.observer, f.old.display, f.new.display)) =
      [(1, "y", "z"), (0, "[object Object]", "[object Object]")] ∧
    ∃ before after o t now, [0, 1, 2] = before ++ o :: after ∧
      Halted 0 t now before o (.handler "check" "z") w w' := by
  have ran : ((checked.forM (Deed.run unhosted 0) { stores := #[.ofValue fannedData] }).bind
      fun before => before.2.stores[0]?.bind fun s =>
        (Scope.assign unhosted { store := 0 } "b" replaced before.2).map fun after =>
          (before.1.isOk && before.2.journal.isEmpty && match after.1 with
            | .error e => e == .handler "check" "z"
            | .ok _ => false,
            s.dependents? before.2.observerAlive "b",
            after.2.journal.map fun f => (f.observer, f.old.display, f.new.display))) =
      some (true, some [0, 1, 2],
        [(1, "y", "z"), (0, "[object Object]", "[object Object]")]) := by decide +kernel
  obtain ⟨⟨made, w⟩, watched, ran⟩ := Option.bind_eq_some_iff.mp ran
  obtain ⟨s, here, ran⟩ := Option.bind_eq_some_iff.mp ran
  obtain ⟨⟨done, w'⟩, ended, ran⟩ := Option.map_eq_some_iff.mp ran
  simp only [Prod.mk.injEq, Bool.and_eq_true] at ran
  obtain ⟨⟨⟨fine, silent⟩, failed⟩, listed, journal⟩ := ran
  have wrote : Scope.assign unhosted { store := 0 } "b" replaced w =
      some (.error (.handler "check" "z"), w') := by
    cases done with
    | ok => cases failed
    | error e => exact eq_of_beq failed ▸ ended
  cases made with
  | error e => cases fine
  | ok =>
    have settled :
        Settled (fun _ => False) (fun effect => effect = noting ∨ effect = refusing) 0 w :=
      Deed.all_settled (by simp [checked, Deed.Watching])
        (settled_start fannedData_canonical) watched
    obtain ⟨s', here', plain, arises⟩ := settled.store
    obtain rfl := Option.some.inj (here.symm.trans here')
    have idle : ∀ effect, effect = noting ∨ effect = refusing → effect.Idle unhosted 0 w := by
      rintro effect (rfl | rfl)
      · exact noting_idle
      · exact Effect.Quiet.idle fun _ _ => trivial
    refine ⟨w, w', s, watched, wrote, listed, journal, ?_⟩
    obtain ⟨-, rfl⟩ | ⟨c, before, after, o, t, -, -, -, -, told, -, halted⟩ :=
      failed_write harmless_checked settled.effects here arises plain wrote
    · rw [List.isEmpty_iff.mp silent] at journal
      cases journal
    · obtain ⟨now, halted⟩ := halted idle
      exact ⟨before, after, o, t, now, Option.some.inj (listed.symm.trans told), halted⟩

end ReactiveView
