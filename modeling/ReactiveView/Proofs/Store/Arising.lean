import ReactiveView.Proofs.Store.Tree

/-! The stores that come about in a program. Data is laid out, written, extended by computed
properties and registered on by observers that were made; whoever tells the observers of a
cell takes the dead ones off it. In such a store computed properties belong to the root, so
code is met at the first key of a path only, and every cell lists observers that were made,
each of them once. -/
namespace ReactiveView.Store

variable {γ : Type}

/-- The stores that come about while so many observers are made. Only some computed properties are
allowed. -/
inductive Arises (allowed : γ → Prop) : ObserverId → Store γ → Prop
  | ofValue {data : Value} : data.Canonical → Arises allowed 0 (.ofValue data)
  | write {made : ObserverId} {s : Store γ} (parent : Handle) (key : String) (value : Value) :
      Arises allowed made s → Arises allowed made (s.write parent key value).2
  | defineComputed {made : ObserverId} {s : Store γ} (name : String) {property : γ} :
      allowed property → Arises allowed made s →
      Arises allowed made (s.defineComputed name property)
  | depend {made : ObserverId} {s : Store γ} (id : CellId) {o : ObserverId} : o < made →
      Arises allowed made s →
      Arises allowed made (s.setRegistry id ((s.registry id).depend o).2)
  | prune {made : ObserverId} {s : Store γ} (id : CellId) (alive : ObserverId → Bool) :
      Arises allowed made s → Arises allowed made (s.setRegistry id ((s.registry id).prune alive))
  | more {made later : ObserverId} {s : Store γ} : made ≤ later → Arises allowed made s →
      Arises allowed later s

/-- What is true of the stores that come about. -/
structure Formed (allowed : γ → Prop) (made : ObserverId) (s : Store γ) : Prop where
  sound : s.Sound
  branching : Branching s.cells
  computed : ∀ c property, s.content c = .computed property → allowed property
  /-- Computed properties are members of the root. -/
  outermost : ∀ a keys, s.content a = .object keys → ∀ member ∈ keys, ∀ property,
    s.content member.2 = .computed property → a = s.root
  distinct : ∀ c, (s.registry c).entries.Nodup
  listed : ∀ c, ∀ o ∈ (s.registry c).entries, o < made

variable {allowed : γ → Prop} {made : ObserverId} {s : Store γ}

theorem formed_ofValue {data : Value} (canonical : data.Canonical) :
    (ofValue data : Store γ).Formed allowed 0 := by
  have ⟨sound, plain, branching⟩ : (ofValue data : Store γ).Tree := tree_ofValue canonical
  refine ⟨sound, branching, fun c property found => (plain c property found).elim,
    fun a keys _ member _ property found => (plain member.2 property found).elim,
    fun c => ?_, fun c o member => ?_⟩
  · rw [entries_ofValue]
    exact List.nodup_nil
  · rw [entries_ofValue] at member
    cases member

namespace Formed

variable (formed : s.Formed allowed made)
include formed

/-- New contents keep a store formed if computed ones are allowed and belong to the root. -/
theorem setContent {c : CellId} (notRoot : c ≠ s.root) {content : Content γ}
    (flat : ∀ keys, content ≠ .object keys)
    (computed : ∀ property, content = .computed property → allowed property ∧
      ∀ a keys, s.content a = .object keys → ∀ member ∈ keys, member.2 = c → a = s.root) :
    (s.setContent c content).Formed allowed made := by
  have replaced : ∀ id found, (s.setContent c content).content id = found →
      s.content id = found ∨ id = c ∧ content = found := by
    intro id found same
    by_cases here : id = c
    · subst here
      by_cases inside : id < s.cells.size
      · exact .inr ⟨rfl, (content_setContent_self inside content).symm.trans same⟩
      · have outside := Nat.le_of_not_lt inside
        simp only [Store.content, contentOf, Store.setContent, Array.getElem?_modify,
          Array.getElem?_eq_none outside] at same ⊢
        exact .inl same
    · exact .inl ((content_setContent_of_ne here content).symm.trans same)
  have object : ∀ a keys, (s.setContent c content).content a = .object keys →
      s.content a = .object keys := fun a keys found =>
    (replaced a _ found).resolve_right fun now => flat keys now.2
  refine ⟨formed.sound.setContent notRoot flat, formed.branching.setContent c flat,
    fun id property found => ?_, fun a keys found member member_in property inner => ?_,
    fun id => ?_, fun id o member => ?_⟩
  · obtain before | ⟨-, now⟩ := replaced id _ found
    · exact formed.computed id property before
    · exact (computed property now).1
  · obtain before | ⟨here, now⟩ := replaced _ _ inner
    · exact formed.outermost a keys (object a keys found) member member_in property before
    · exact (computed property now).2 a keys (object a keys found) member member_in here
  · rw [registry_setContent]
    exact formed.distinct id
  · rw [registry_setContent] at member
    exact formed.listed id o member

theorem addMember {parent : CellId} {keys : List (String × CellId)}
    (object : s.content parent = .object keys) {key : String} (fresh : keys.lookup key = none)
    {content : Content γ} (flat : ∀ keys, content ≠ .object keys)
    (computed : ∀ property, content = .computed property → allowed property ∧ parent = s.root) :
    (s.addMember parent key content).Formed allowed made := by
  have inside : parent < s.cells.size := inside_of_object object
  have atNew : (s.addMember parent key content).content s.cells.size = content := by
    rw [content_addMember object, if_neg (Nat.ne_of_gt inside), if_pos rfl]
  have atOld : ∀ id, id ≠ s.cells.size → ∀ property,
      (s.addMember parent key content).content id = .computed property →
      s.content id = .computed property := by
    intro id old property found
    rw [content_addMember object] at found
    rw [if_neg old] at found
    split at found
    · cases found
    · exact found
  refine ⟨formed.sound.addMember parent key flat,
    formed.branching.addMember formed.sound object fresh flat, fun id property found => ?_,
    fun a fields found member member_in property inner => ?_, fun id => ?_, fun id o member => ?_⟩
  · by_cases new : id = s.cells.size
    · exact (computed property (atNew.symm.trans (new ▸ found))).1
    · exact formed.computed id property (atOld id new property found)
  · rw [root_addMember]
    obtain ⟨rfl, rfl⟩ | ⟨before, was, member_in⟩ :=
      member_of_addMember object flat found member_in
    · exact (computed property (atNew.symm.trans inner)).2
    · have old := Nat.ne_of_lt (formed.sound.members a before was member member_in).1
      exact formed.outermost a before was member member_in property (atOld _ old property inner)
  · rw [registry_addMember object]
    exact formed.distinct id
  · rw [registry_addMember object] at member
    exact formed.listed id o member

theorem write (parent : Handle) (key : String) (value : Value) :
    (s.write parent key value).2.Formed allowed made := by
  obtain same | ⟨c, v, notRoot, changed⟩ | ⟨a, keys, object, fresh, added⟩ :=
    formed.sound.write_cases parent key value
  · rw [same]
    exact formed
  · rw [changed]
    exact formed.setContent notRoot nofun nofun
  · rw [added]
    exact formed.addMember object fresh nofun nofun

theorem defineComputed (name : String) {property : γ} (allows : allowed property) :
    (s.defineComputed name property).Formed allowed made := by
  obtain ⟨keys, root⟩ := formed.sound.root_object
  have flat : ∀ keys, Content.computed property ≠ .object keys := nofun
  unfold Store.defineComputed
  cases found : s.child? s.root name with
  | some c =>
    simp only [child?, root] at found
    refine formed.setContent (formed.sound.members _ keys root _ (mem_of_lookup found)).2 flat ?_
    intro _ same
    obtain rfl := Content.computed.inj same
    refine ⟨allows, ?_⟩
    rintro a fields object ⟨key, _⟩ member_in rfl
    exact (formed.branching.single a s.root fields keys object root key name _ member_in
      (mem_of_lookup found)).1
  | none =>
    simp only [child?, root] at found
    refine formed.addMember root found flat ?_
    intro _ same
    obtain rfl := Content.computed.inj same
    exact ⟨allows, rfl⟩

/-- Other registries keep a store formed if they list observers that were made, each once. -/
theorem setRegistry (id : CellId) {r : Registry} (distinct : r.entries.Nodup)
    (listed : ∀ o ∈ r.entries, o < made) : (s.setRegistry id r).Formed allowed made := by
  have same := SameData.setRegistry s id r
  refine ⟨same.sound formed.sound, same.branching formed.branching, fun c property found => ?_,
    fun a keys found member member_in property inner => ?_, fun c => ?_, fun c o member => ?_⟩
  · exact formed.computed c property ((same.content c).symm.trans found)
  · exact formed.outermost a keys ((same.content a).symm.trans found) member member_in property
      ((same.content _).symm.trans inner)
  · rw [registry_setRegistry]
    split
    · exact distinct
    · exact formed.distinct c
  · rw [registry_setRegistry] at member
    split at member
    · exact listed o member
    · exact formed.listed c o member

theorem depend (id : CellId) {o : ObserverId} (known : o < made) :
    (s.setRegistry id ((s.registry id).depend o).2).Formed allowed made := by
  refine formed.setRegistry id ?_ fun p member => ?_
  · unfold Registry.depend
    split
    · exact formed.distinct id
    · rename_i new
      exact List.nodup_append.mpr ⟨formed.distinct id, List.nodup_singleton o,
        fun a member b other same => new (List.mem_singleton.mp other ▸ same ▸ member)⟩
  · obtain before | rfl := Registry.mem_entries_depend.mp member
    · exact formed.listed id p before
    · exact known

theorem prune (id : CellId) (alive : ObserverId → Bool) :
    (s.setRegistry id ((s.registry id).prune alive)).Formed allowed made :=
  formed.setRegistry id ((formed.distinct id).filter alive) fun o member =>
    formed.listed id o (List.mem_filter.mp member).1

theorem more {later : ObserverId} (enough : made ≤ later) : s.Formed allowed later :=
  { formed with listed := fun c o member => Nat.lt_of_lt_of_le (formed.listed c o member) enough }

end Formed

theorem Arises.formed (arises : s.Arises allowed made) : s.Formed allowed made := by
  induction arises with
  | ofValue canonical => exact formed_ofValue canonical
  | write parent key value _ ih => exact ih.write parent key value
  | defineComputed name allows _ ih => exact ih.defineComputed name allows
  | depend id known _ ih => exact ih.depend id known
  | prune id alive _ ih => exact ih.prune id alive
  | more enough _ ih => exact ih.more enough

/-- Tracking an observer that was made is registering it on one cell after the other. -/
theorem Arises.track {o : ObserverId} (known : o < made) (cells : List CellId)
    (arises : s.Arises allowed made) : (s.track (some o) cells).Arises allowed made := by
  simp only [Store.track]
  induction cells generalizing s with
  | nil => exact arises
  | cons c rest ih => exact ih (arises.depend c known)

end ReactiveView.Store
