/-! Lists of named entries in order of first appearance. -/
namespace ReactiveView.Entries

variable {α : Type}

/-- Replaces the entry of a name in its place, or adds it at the end. -/
def set (name : String) (a : α) : List (String × α) → List (String × α)
  | [] => [(name, a)]
  | (n, b) :: rest => if n = name then (n, a) :: rest else (n, b) :: set name a rest

/-- Of two entries with one name the first gives the place and the second the content. -/
def merge (entries : List (String × α)) : List (String × α) :=
  entries.foldl (fun merged e => set e.1 e.2 merged) []

theorem lookup_set_self (name : String) (a : α) (entries : List (String × α)) :
    (set name a entries).lookup name = some a := by
  induction entries with
  | nil => simp [set]
  | cons e rest ih =>
    obtain ⟨n, b⟩ := e
    by_cases same : n = name
    · simp [set, same]
    · have apart : (name == n) = false := by simpa using fun h => same h.symm
      simp only [set, if_neg same, List.lookup_cons, apart, ih]

theorem lookup_set_of_ne {name other : String} (distinct : other ≠ name) (a : α)
    (entries : List (String × α)) :
    (set name a entries).lookup other = entries.lookup other := by
  have apart : (other == name) = false := by simpa using distinct
  induction entries with
  | nil => simp only [set, List.lookup_cons, apart]
  | cons e rest ih =>
    obtain ⟨n, b⟩ := e
    by_cases same : n = name
    · simp only [set, same, if_pos, List.lookup_cons, apart]
    · simp only [set, if_neg same, List.lookup_cons, ih]

theorem mem_set {name : String} {a : α} {e : String × α} {entries : List (String × α)}
    (member : e ∈ set name a entries) : e.2 = a ∨ e ∈ entries := by
  induction entries with
  | nil => exact .inl (by rw [List.mem_singleton.mp member])
  | cons f rest ih =>
    simp only [set] at member
    split at member
    · rcases List.mem_cons.mp member with rfl | later
      · exact .inl rfl
      · exact .inr (List.mem_cons_of_mem _ later)
    · rcases List.mem_cons.mp member with rfl | later
      · exact .inr List.mem_cons_self
      · exact (ih later).imp_right (List.mem_cons_of_mem _)

theorem set_names (name : String) (a : α) (entries : List (String × α)) :
    (name, a) ∈ set name a entries := by
  induction entries with
  | nil => simp [set]
  | cons f rest ih =>
    simp only [set]
    split
    · rename_i same
      simp [same]
    · exact List.mem_cons_of_mem _ ih

theorem names_set (name : String) (a : α) (entries : List (String × α)) :
    (set name a entries).map Prod.fst =
      entries.map Prod.fst ++ if name ∈ entries.map Prod.fst then [] else [name] := by
  induction entries with
  | nil => simp [set]
  | cons e rest ih =>
    obtain ⟨n, b⟩ := e
    by_cases same : n = name
    · simp [set, same]
    · have other : ¬ name = n := fun h => same h.symm
      simp only [set, if_neg same, List.map_cons, ih, List.mem_cons, other, false_or,
        List.cons_append]

theorem set_of_not_mem {name : String} {entries : List (String × α)}
    (fresh : name ∉ entries.map Prod.fst) (a : α) :
    set name a entries = entries ++ [(name, a)] := by
  induction entries with
  | nil => rfl
  | cons e rest ih =>
    obtain ⟨n, b⟩ := e
    obtain ⟨other, fresh⟩ := not_or.mp (mt List.mem_cons.mpr fresh)
    rw [set, if_neg fun same => other same.symm, ih fresh]
    rfl

theorem nodup_set {entries : List (String × α)} (distinct : (entries.map Prod.fst).Nodup)
    (name : String) (a : α) : ((set name a entries).map Prod.fst).Nodup := by
  rw [names_set]
  split
  · rwa [List.append_nil]
  · rename_i fresh
    refine List.nodup_append.mpr ⟨distinct, by simp, fun n member m single => ?_⟩
    rw [List.mem_singleton.mp single]
    rintro rfl
    exact fresh member

/-- Merging on top of what is there already gives each name once, and no new name. -/
theorem foldl_set (entries merged : List (String × α)) (distinct : (merged.map Prod.fst).Nodup) :
    ((entries.foldl (fun merged e => set e.1 e.2 merged) merged).map Prod.fst).Nodup ∧
      ∀ n ∈ (entries.foldl (fun merged e => set e.1 e.2 merged) merged).map Prod.fst,
        n ∈ merged.map Prod.fst ∨ n ∈ entries.map Prod.fst := by
  induction entries generalizing merged with
  | nil => exact ⟨distinct, fun _ member => .inl member⟩
  | cons e rest ih =>
    obtain ⟨nodup, names⟩ := ih _ (nodup_set distinct e.1 e.2)
    refine ⟨nodup, fun n member => ?_⟩
    obtain before | later := names n member
    · rw [names_set] at before
      obtain before | here := List.mem_append.mp before
      · exact .inl before
      · split at here
        · cases here
        · exact .inr (List.mem_cons.mpr (.inl (List.mem_singleton.mp here)))
    · exact .inr (List.mem_cons_of_mem _ later)

theorem nodup_merge (entries : List (String × α)) : ((merge entries).map Prod.fst).Nodup :=
  (foldl_set entries [] List.nodup_nil).1

theorem mem_names_of_merge {entries : List (String × α)} {e : String × α}
    (member : e ∈ merge entries) :
    e.1 ∈ entries.map Prod.fst :=
  ((foldl_set entries [] List.nodup_nil).2 e.1 (List.mem_map_of_mem member)).resolve_left nofun

/-- Entries whose names differ stay as they are. -/
theorem merge_of_nodup {entries : List (String × α)} (distinct : (entries.map Prod.fst).Nodup) :
    merge entries = entries := by
  have onTop : ∀ merged : List (String × α), ((merged ++ entries).map Prod.fst).Nodup →
      entries.foldl (fun merged e => set e.1 e.2 merged) merged = merged ++ entries := by
    clear distinct
    induction entries with
    | nil => exact fun merged _ => (List.append_nil merged).symm
    | cons e rest ih =>
      intro merged distinct
      have fresh : e.1 ∉ merged.map Prod.fst := fun member => by
        rw [List.map_append, List.map_cons] at distinct
        exact (List.nodup_append.mp distinct).2.2 e.1 member e.1 List.mem_cons_self rfl
      rw [List.foldl_cons, set_of_not_mem fresh]
      refine (ih _ ?_).trans (List.append_assoc _ _ _)
      rwa [List.append_assoc]
  exact onTop [] distinct

end ReactiveView.Entries
