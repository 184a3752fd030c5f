import ReactiveView.Proofs.Store.Assigning

/-! Who is listed where. If observers are registered only by reading their own paths, the ones
listed on a cell have paths that begin with the keys that lead to it. Writing the store keeps this
up: it cuts ways off, and the ways to the cells it adds are listed nowhere. -/
namespace ReactiveView.Store

variable {γ : Type} {s t : Store γ} {c : CellId} {o : ObserverId}
variable {may may' : List String → ObserverId → Prop}

/-- A cell that keys lead to lists only observers that may be there. -/
def Lists (s : Store γ) (may : List String → ObserverId → Prop) : Prop :=
  ∀ keys c, s.descend? s.root keys = some c → ∀ o ∈ (s.registry c).entries, may keys o

theorem lists_ofValue (data : Value) : (ofValue data : Store γ).Lists may := by
  intro keys c _ o listed
  rw [entries_ofValue] at listed
  cases listed

theorem Lists.mono (lists : s.Lists may) (weaker : ∀ keys o, may keys o → may' keys o) :
    s.Lists may' := by
  intro keys c reached o listed
  exact weaker keys o (lists keys c reached o listed)

/-- As far as neither objects nor entries are new, nobody is listed anew. -/
theorem Lists.before (lists : s.Lists may) (root : t.root = s.root)
    (objects : ∀ id keys, t.content id = .object keys → s.content id = .object keys)
    (entries : ∀ id, ∀ o ∈ (t.registry id).entries, o ∈ (s.registry id).entries) : t.Lists may := by
  intro keys c reached o listed
  rw [root] at reached
  exact lists keys c (descend?_before objects reached) o (entries c o listed)

/-- The keys that lead somewhere lead there still when a member is added, or they lead to the new
member. -/
theorem descend?_addMember {parent : CellId} {fields : List (String × CellId)}
    (object : s.content parent = .object fields) {key : String} {v : Value} {a : CellId}
    {keys : List String} (reached : (s.addMember parent key (.leaf v)).descend? a keys = some c) :
    c = s.cells.size ∨ s.descend? a keys = some c := by
  have inside : parent < s.cells.size := inside_of_object object
  have flat : ∀ keys, (.leaf v : Content γ) ≠ .object keys := nofun
  have new : (s.addMember parent key (.leaf v)).content s.cells.size = .leaf v := by
    rw [content_addMember object, if_neg (Nat.ne_of_gt inside), if_pos rfl]
  induction keys generalizing a with
  | nil => exact .inr reached
  | cons name rest ih =>
    obtain ⟨child, member, further⟩ := Option.bind_eq_some_iff.mp reached
    obtain ⟨after, isObject, member⟩ := object_of_child? member
    have ended : child = s.cells.size → c = s.cells.size := by
      rintro rfl
      cases rest with
      | nil => exact (Option.some.inj further).symm
      | cons _ _ => simp [descend?, child?, new] at further
    obtain here | below := ih further
    · exact .inl here
    · obtain ⟨-, same⟩ | ⟨before, was, old⟩ :=
        member_of_addMember object flat isObject (mem_of_lookup member)
      · exact .inl (ended (Prod.mk.inj same).2)
      · obtain ⟨rfl, rfl⟩ | ⟨-, was⟩ := object_of_addMember object flat isObject
        · rw [List.lookup_append] at member
          cases known : fields.lookup name with
          | some old =>
            rw [known] at member
            obtain rfl : old = child := Option.some.inj member
            refine .inr ?_
            simp only [descend?, child?, object, known, Option.bind_some, below]
          | none =>
            rw [known] at member
            exact .inl (ended (Prod.mk.inj (List.mem_singleton.mp (mem_of_lookup member))).2)
        · refine .inr ?_
          simp only [descend?, child?, was, member, Option.bind_some, below]

/-- Writing a property lists nobody anew. -/
theorem Lists.write (lists : s.Lists may) (sound : s.Sound) (parent : Handle) (key : String)
    (v : Value) : (s.write parent key v).2.Lists may := by
  obtain same | ⟨c, u, -, changed⟩ | ⟨a, fields, object, -, added⟩ := sound.write_cases parent key v
  · rw [same]
    exact lists
  · rw [changed]
    refine lists.before (root_setContent s c _) ?_ ?_
    · have flat : ∀ keys, (.leaf u : Content γ) ≠ .object keys := nofun
      intro id keys found
      exact object_of_setContent flat found
    · intro id o listed
      rwa [registry_setContent] at listed
  · rw [added]
    intro keys c reached o listed
    rw [registry_addMember object] at listed
    rw [root_addMember] at reached
    obtain rfl | before := descend?_addMember object reached
    · simp [registry] at listed
    · exact lists keys c before o listed

/-- Nobody is listed anew when the dead leave. -/
theorem Lists.prune (lists : s.Lists may) (alive : ObserverId → Bool) (c : CellId) :
    (s.setRegistry c ((s.registry c).prune alive)).Lists may := by
  have same := SameData.setRegistry s c ((s.registry c).prune alive)
  apply lists.before same.root
  · exact fun id keys found => (same.content id).symm.trans found
  · intro id o listed
    rw [registry_setRegistry] at listed
    split at listed
    · rename_i here
      exact here.1 ▸ (List.mem_filter.mp listed).1
    · exact listed

/-- The cells that are passed on the way along keys are those that the first of the keys lead to. -/
theorem taken_of_cellsOn (plain : s.Plain) {a : CellId} {keys : List String}
    (passed : c ∈ s.cellsOn keys (.object a)) :
    ∃ taken, taken <+: keys ∧ s.descend? a taken = some c := by
  induction keys generalizing a with
  | nil => cases passed
  | cons key rest ih =>
    cases object : s.content a with
    | object fields =>
      rw [cellsOn_object plain object] at passed
      cases member : fields.lookup key with
      | none =>
        rw [member] at passed
        cases passed
      | some child =>
        have down : s.child? a key = some child := by simp only [child?, object, member]
        rw [member] at passed
        obtain rfl | further := List.mem_cons.mp passed
        · refine ⟨[key], ⟨rest, rfl⟩, ?_⟩
          simp only [descend?, down, Option.bind_some]
        · by_cases inner : ∃ inner, s.content child = .object inner
          · obtain ⟨inner, isObject⟩ := inner
            rw [handleOf_object isObject] at further
            obtain ⟨taken, ⟨more, rfl⟩, reached⟩ := ih further
            refine ⟨key :: taken, ⟨more, rfl⟩, ?_⟩
            simp only [descend?, down, Option.bind_some, reached]
          · have leaf := handleOf_leaf fun fields isObject => inner ⟨fields, isObject⟩
            rw [cellsOn_within plain leaf] at further
            cases further
    | leaf v =>
      rw [cellsOn_notObject plain (by simp [object])] at passed
      cases passed
    | computed property => exact (plain a property object).elim

/-- An observer that reads its path is listed only on the way along the keys of the path. -/
theorem Lists.track (lists : s.Lists may) (tree : s.Tree) {keys : List String}
    (own : ∀ taken, taken <+: keys → may taken o) :
    (s.track (some o) (s.cellsOn keys (.object s.root))).Lists may := by
  have same := SameData.track (some o) (s.cellsOn keys (.object s.root)) s
  intro way c reached p listed
  have before : s.descend? s.root way = some c := by
    rw [same.root] at reached
    exact descend?_before (fun id fields found => (same.content id).symm.trans found) reached
  rw [registry_track] at listed
  split at listed
  · rename_i passed
    obtain was | rfl := Registry.mem_entries_depend.mp listed
    · exact lists way c before p was
    · obtain ⟨taken, first, down⟩ := taken_of_cellsOn tree.plain passed.1
      rw [descend?_injective tree before down]
      exact own taken first
  · exact lists way c before p listed

end ReactiveView.Store
