import Mathlib.Data.List.Chain
import Mathlib.Data.List.Nodup
import ReactiveView.Markup.Parse
import ReactiveView.Proofs.Markup.Entity

/-! The markup that can be written down and read back: which tags, names, texts and comments there
are, and how neighbouring texts run together. Joined, they are written as they were before. -/
namespace ReactiveView

namespace Text

theorem isUpper_iff (c : Char) : c.isUpper = true ↔ 65 ≤ c.toNat ∧ c.toNat ≤ 90 :=
  decide_eq_true_iff.trans (and_congr UInt32.le_iff_toNat_le UInt32.le_iff_toNat_le)

theorem isLower_iff (c : Char) : c.isLower = true ↔ 97 ≤ c.toNat ∧ c.toNat ≤ 122 :=
  Bool.and_eq_true_iff.trans (and_congr (decide_eq_true_iff.trans UInt32.le_iff_toNat_le)
    (decide_eq_true_iff.trans UInt32.le_iff_toNat_le))

theorem toLower_of_not_isUpper {c : Char} (small : c.isUpper = false) : c.toLower = c := by
  unfold Char.toLower
  exact dif_neg (of_decide_eq_false small)

/-- A character that is put into lower case stays, or becomes a small letter. -/
theorem toLower_cases (c : Char) : c.toLower = c ∧ c.isUpper = false ∨
    97 ≤ c.toLower.toNat ∧ c.toLower.toNat ≤ 122 := by
  cases capital : c.isUpper with
  | false => exact .inl ⟨toLower_of_not_isUpper capital, rfl⟩
  | true =>
    have range : c.val ≥ 'A'.val ∧ c.val ≤ 'Z'.val := of_decide_eq_true capital
    obtain ⟨low, high⟩ := (isUpper_iff c).mp capital
    have shifted : c.toLower.toNat = (c.toNat + ('a'.val - 'A'.val).toNat) % 2 ^ 32 := by
      have lowered : c.toLower.val = c.val + ('a'.val - 'A'.val) := by
        unfold Char.toLower
        exact congrArg Char.val (dif_pos range)
      exact (congrArg UInt32.toNat lowered).trans (UInt32.toNat_add c.val _)
    have difference : ('a'.val - 'A'.val).toNat = 32 := by decide
    omega

theorem isUpper_toLower (c : Char) : c.toLower.isUpper = false := by
  rcases toLower_cases c with ⟨same, small⟩ | range
  · rw [same, small]
  · rw [Bool.eq_false_iff, Ne, isUpper_iff]
    omega

theorem lower_eq {s : String} (small : ∀ c ∈ s.toList, c.isUpper = false) : lower s = s := by
  rw [← String.toList_inj, lower, String.toList_map]
  calc s.toList.map Char.toLower = s.toList.map id :=
        List.map_congr_left fun c member => toLower_of_not_isUpper (small c member)
    _ = s.toList := List.map_id _

end Text

namespace Markup

/-- A tag as tags are read: a letter and no blank, no sign of an end and no capital after it. -/
structure IsTag (tag : String) : Prop where
  letter : ∃ c rest, tag.toList = c :: rest ∧ Token.isLetter c = true
  inner : ∀ c ∈ tag.toList, Token.isTagChar c = true
  small : ∀ c ∈ tag.toList, c.isUpper = false

structure IsName (name : String) : Prop where
  nonempty : name ≠ ""
  inner : ∀ c ∈ name.toList, Token.isNameChar c = true

theorem isTag_iff (tag : String) : IsTag tag ↔ tag.toList.head?.any Token.isLetter = true ∧
    tag.toList.all Token.isTagChar = true ∧ tag.toList.all (!·.isUpper) = true := by
  constructor
  · rintro ⟨⟨c, rest, shape, letter⟩, inner, small⟩
    refine ⟨by simp [shape, letter], List.all_eq_true.mpr inner,
      List.all_eq_true.mpr fun c member => ?_⟩
    simp [small c member]
  · rintro ⟨letter, inner, small⟩
    refine ⟨?_, List.all_eq_true.mp inner, fun c member => ?_⟩
    · cases shape : tag.toList with
      | nil =>
        rw [shape] at letter
        cases letter
      | cons c rest =>
        rw [shape] at letter
        exact ⟨c, rest, rfl, letter⟩
    · simpa using List.all_eq_true.mp small c member

instance (tag : String) : Decidable (IsTag tag) :=
  decidable_of_iff _ (isTag_iff tag).symm

theorem isName_iff (name : String) :
    IsName name ↔ name ≠ "" ∧ name.toList.all Token.isNameChar = true :=
  ⟨fun isName => ⟨isName.nonempty, List.all_eq_true.mpr isName.inner⟩,
    fun both => ⟨both.1, List.all_eq_true.mp both.2⟩⟩

instance (name : String) : Decidable (IsName name) :=
  decidable_of_iff _ (isName_iff name).symm

/-- Markup each piece of which ends where it is written to end. -/
inductive Sound : Markup → Prop
  | element {tag : String} {attributes : List (String × String)} {children : List Markup} :
      IsTag tag → (∀ a ∈ attributes, IsName a.1) → (attributes.map Prod.fst).Nodup →
      (isVoid tag = true → children = []) → (∀ m ∈ children, Sound m) →
      Sound (.element tag attributes children)
  | text {data : String} : data ≠ "" → Sound (.text data)
  | comment {data : String} : ¬ "-->".toList <:+: data.toList → Sound (.comment data)

def isText : Markup → Bool
  | .text _ => true
  | _ => false

/-- No two neighbours are texts. -/
def Apart (ms : List Markup) : Prop :=
  ms.IsChain fun a b => ¬ (a.isText = true ∧ b.isText = true)

/-- No two neighbours are texts, on any level. -/
inductive Parted : Markup → Prop
  | element {tag : String} {attributes : List (String × String)} {children : List Markup} :
      Apart children → (∀ m ∈ children, Parted m) → Parted (.element tag attributes children)
  | text (data : String) : Parted (.text data)
  | comment (data : String) : Parted (.comment data)

/-- A piece in front of others; a text runs together with a text. -/
def attach : Markup → List Markup → List Markup
  | .text s, .text t :: rest => .text (s ++ t) :: rest
  | m, rest => m :: rest

mutual

/-- Lets neighbouring texts run together, on every level. -/
def join : Markup → Markup
  | .element tag attributes children => .element tag attributes (joinAll children)
  | .text data => .text data
  | .comment data => .comment data

def joinAll : List Markup → List Markup
  | [] => []
  | m :: rest => attach (join m) (joinAll rest)

end

theorem attach_eq (m : Markup) (ms : List Markup) :
    attach m ms = m :: ms ∧ (∀ n ∈ ms.head?, ¬ (m.isText = true ∧ n.isText = true)) ∨
      ∃ s t rest, m = .text s ∧ ms = .text t :: rest ∧ attach m ms = .text (s ++ t) :: rest := by
  cases m with
  | text s =>
    cases ms with
    | nil => exact .inl ⟨rfl, nofun⟩
    | cons n rest =>
      cases n with
      | text t => exact .inr ⟨s, t, rest, rfl, rfl, rfl⟩
      | element tag attributes children => exact .inl ⟨rfl, by simp [isText]⟩
      | comment data => exact .inl ⟨rfl, by simp [isText]⟩
  | element tag attributes children => exact .inl ⟨rfl, by simp [isText]⟩
  | comment data => exact .inl ⟨rfl, by simp [isText]⟩

theorem writeAll_attach (m : Markup) (ms : List Markup) :
    writeAll (attach m ms) = write m ++ writeAll ms := by
  obtain ⟨same, -⟩ | ⟨s, t, rest, rfl, rfl, same⟩ := attach_eq m ms
  · rw [same, writeAll]
  · rw [same]
    simp only [writeAll, write, String.toList_append, Entity.escapeText_append, List.append_assoc]

mutual

/-- Joined markup is written as it was before. -/
theorem write_join : ∀ m : Markup, write (join m) = write m
  | .element tag attributes children => by rw [join, write, write, writeAll_joinAll children]
  | .text _ => rfl
  | .comment _ => rfl

theorem writeAll_joinAll : ∀ ms : List Markup, writeAll (joinAll ms) = writeAll ms
  | [] => rfl
  | m :: rest => by rw [joinAll, writeAll_attach, write_join m, writeAll_joinAll rest, writeAll]

end

theorem sound_attach {m : Markup} {ms : List Markup} (sound : m.Sound) (later : ∀ n ∈ ms, n.Sound) :
    ∀ n ∈ attach m ms, n.Sound := by
  obtain ⟨same, -⟩ | ⟨s, t, rest, rfl, rfl, same⟩ := attach_eq m ms
  · rw [same]
    exact List.forall_mem_cons.mpr ⟨sound, later⟩
  · rw [same]
    refine List.forall_mem_cons.mpr ⟨.text fun none => ?_, (List.forall_mem_cons.mp later).2⟩
    cases sound with
    | text some => exact some (String.append_eq_empty_iff.mp none).1

mutual

theorem sound_join : ∀ m : Markup, m.Sound → (join m).Sound
  | .element tag attributes children, sound => by
    cases sound with
    | element isTag names distinct void below =>
      refine .element isTag names distinct (fun isVoid => ?_) (sound_joinAll children below)
      rw [void isVoid]
      rfl
  | .text _, sound => sound
  | .comment _, sound => sound

theorem sound_joinAll : ∀ ms : List Markup, (∀ m ∈ ms, m.Sound) → ∀ m ∈ joinAll ms, m.Sound
  | [], _ => nofun
  | m :: rest, sound => by
    obtain ⟨first, later⟩ := List.forall_mem_cons.mp sound
    exact sound_attach (sound_join m first) (sound_joinAll rest later)

end

theorem parted_attach {m : Markup} {ms : List Markup} (parted : m.Parted) (apart : Apart ms)
    (later : ∀ n ∈ ms, n.Parted) : Apart (attach m ms) ∧ ∀ n ∈ attach m ms, n.Parted := by
  obtain ⟨same, differs⟩ | ⟨s, t, rest, rfl, rfl, same⟩ := attach_eq m ms
  · rw [same]
    exact ⟨List.isChain_cons.mpr ⟨differs, apart⟩, List.forall_mem_cons.mpr ⟨parted, later⟩⟩
  · rw [same]
    obtain ⟨differs, apart⟩ := List.isChain_cons.mp apart
    exact ⟨List.isChain_cons.mpr ⟨differs, apart⟩,
      List.forall_mem_cons.mpr ⟨.text _, (List.forall_mem_cons.mp later).2⟩⟩

mutual

theorem parted_join : ∀ m : Markup, (join m).Parted
  | .element _ _ children => .element (parted_joinAll children).1 (parted_joinAll children).2
  | .text data => .text data
  | .comment data => .comment data

theorem parted_joinAll : ∀ ms : List Markup, Apart (joinAll ms) ∧ ∀ m ∈ joinAll ms, m.Parted
  | [] => ⟨.nil, nofun⟩
  | m :: rest =>
    parted_attach (parted_join m) (parted_joinAll rest).1 (parted_joinAll rest).2

end

theorem attach_of_apart {m : Markup} {ms : List Markup} (apart : Apart (m :: ms)) :
    attach m ms = m :: ms := by
  obtain ⟨same, -⟩ | ⟨s, t, rest, rfl, rfl, -⟩ := attach_eq m ms
  · exact same
  · exact ((List.isChain_cons_cons.mp apart).1 ⟨rfl, rfl⟩).elim

mutual

theorem join_of_parted : ∀ m : Markup, m.Parted → join m = m
  | .element tag attributes children, parted => by
    cases parted with
    | element apart parted => rw [join, joinAll_of_apart children apart parted]
  | .text _, _ => rfl
  | .comment _, _ => rfl

/-- Nothing runs together where no two texts are neighbours. -/
theorem joinAll_of_apart : ∀ ms : List Markup, Apart ms → (∀ m ∈ ms, m.Parted) → joinAll ms = ms
  | [], _, _ => rfl
  | m :: ms, apart, parted => by
    obtain ⟨first, later⟩ := List.forall_mem_cons.mp parted
    rw [joinAll, join_of_parted m first, joinAll_of_apart ms (List.isChain_cons.mp apart).2 later,
      attach_of_apart apart]

end

theorem joinAll_joinAll (ms : List Markup) : joinAll (joinAll ms) = joinAll ms :=
  joinAll_of_apart _ (parted_joinAll ms).1 (parted_joinAll ms).2

end Markup
end ReactiveView
