import Mathlib.Data.List.TakeWhile
import ReactiveView.Proofs.Markup.RoundTrip

/-! What parsing gives is markup that can be written down and read back, whatever text is parsed:
tags, names, comments and texts are cut out of it so that none holds the sign of its own end. -/
namespace ReactiveView

namespace Token

/-- A token that can be part of what markup is written as. -/
def Sound : Token → Prop
  | .opening tag attributes _ => Markup.IsTag tag ∧ ∀ a ∈ attributes, Markup.IsName a.1
  | .closing _ => True
  | .comment data => ¬ "-->".toList <:+: data.toList
  | .text data => data ≠ ""

theorem through_prefix (pattern s : List Char) : (through pattern s).1 <+: s := by
  induction s with
  | nil => exact List.prefix_rfl
  | cons c s ih =>
    rw [through]
    split
    · exact List.nil_prefix
    · exact List.cons_prefix_cons.mpr ⟨rfl, ih⟩

/-- What stands before the first occurrence holds no occurrence. -/
theorem not_infix_through {pattern : List Char} (some : pattern ≠ []) (s : List Char) :
    ¬ pattern <:+: (through pattern s).1 := by
  induction s with
  | nil => exact fun inside => some (List.infix_nil.mp inside)
  | cons c s ih =>
    rw [through]
    split
    · exact fun inside => some (List.infix_nil.mp inside)
    · rename_i notHere
      intro inside
      obtain here | later := List.infix_cons_iff.mp inside
      · refine notHere (List.isPrefixOf_iff_prefix.mpr (here.trans ?_))
        exact List.cons_prefix_cons.mpr ⟨rfl, through_prefix pattern s⟩
      · exact ih later

theorem isTagChar_of_range {c : Char} (low : 65 ≤ c.toNat) (high : c.toNat ≤ 122) :
    isTagChar c = true := by
  refine (isTagChar_iff c).mpr ⟨?_, ?_, ?_⟩
  · simp only [Text.isBlank, Bool.or_eq_false_iff, Bool.and_eq_false_iff, decide_eq_false_iff_not,
      beq_eq_false_iff_ne]
    omega
  all_goals
    rintro rfl
    revert low
    decide

theorem isTagChar_toLower {c : Char} (inner : isTagChar c = true) : isTagChar c.toLower = true := by
  rcases Text.toLower_cases c with ⟨same, -⟩ | ⟨low, high⟩
  · rwa [same]
  · exact isTagChar_of_range (by omega) high

theorem isLetter_toLower {c : Char} (letter : isLetter c = true) : isLetter c.toLower = true := by
  rcases Text.toLower_cases c with ⟨same, -⟩ | range
  · rwa [same]
  · exact (isLetter_iff _).mpr (.inr range)

theorem isTagChar_of_isLetter {c : Char} (letter : isLetter c = true) : isTagChar c = true := by
  have range := (isLetter_iff c).mp letter
  exact isTagChar_of_range (by omega) (by omega)

theorem isTag_lower {c : Char} {s : List Char} (letter : isLetter c = true)
    (inner : ∀ x ∈ s, isTagChar x = true) : Markup.IsTag (Text.lower (String.ofList (c :: s))) := by
  have written : (Text.lower (String.ofList (c :: s))).toList = (c :: s).map Char.toLower := by
    rw [Text.lower, String.toList_map, String.toList_ofList]
  refine ⟨⟨c.toLower, s.map Char.toLower, written, isLetter_toLower letter⟩, ?_, ?_⟩
  all_goals
    intro x member
    obtain ⟨y, here, rfl⟩ := List.mem_map.mp (written ▸ member)
  · refine isTagChar_toLower ?_
    rcases List.mem_cons.mp here with rfl | later
    · exact isTagChar_of_isLetter letter
    · exact inner y later
  · exact Text.isUpper_toLower y

theorem isName_attributes (s : List Char) : ∀ a ∈ (attributes s).1, Markup.IsName a.1 := by
  fun_induction attributes s with
  | case1 => exact List.forall_mem_nil _
  | case2 => exact List.forall_mem_nil _
  | case3 => exact List.forall_mem_nil _
  | case4 s c rest _ _ _ _ first _ name assigned more ending same ih =>
    rw [same] at ih
    refine List.forall_mem_cons.mpr ⟨⟨?_, ?_⟩, ih⟩
    · simp [name]
    · intro x member
      rw [String.toList_ofList] at member
      rcases List.mem_cons.mp member with rfl | later
      · exact first
      · exact List.mem_takeWhile_imp later
  | case5 _ _ _ _ _ _ _ _ ih => exact ih

theorem exists_of_startsTag {s : List Char} (starts : startsTag s = true) :
    ∃ c rest, s = '<' :: c :: rest ∧ (isLetter c = true ∨ c = '/' ∨ c = '!') := by
  unfold startsTag at starts
  split at starts
  · exact ⟨_, _, rfl, by simpa [or_assoc] using starts⟩
  · cases starts

theorem sound_next (c : Char) (s : List Char) : ∀ t ∈ (next c s).1, t.Sound := by
  unfold next
  split
  · rintro _ ⟨⟩
    simpa [Sound] using not_infix_through (by decide : "-->".toList ≠ []) _
  · intro t none
    cases none
  · rintro _ ⟨⟩
    trivial
  · rename_i notComment notDeclaration notClosing
    split
    · rename_i starts
      obtain ⟨d, rest, same, kind⟩ := exists_of_startsTag starts
      obtain ⟨rfl, rfl⟩ := List.cons.inj same
      have letter : isLetter d = true := by
        rcases kind with letter | rfl | rfl
        · exact letter
        · exact (notClosing _ rfl rfl).elim
        · exact (notDeclaration _ rfl rfl).elim
      rintro _ ⟨⟩
      refine ⟨?_, isName_attributes _⟩
      rw [List.takeWhile_cons_of_pos (isTagChar_of_isLetter letter)]
      exact isTag_lower letter fun x member => List.mem_takeWhile_imp member
    · rintro _ ⟨⟩
      rw [Sound, Ne, String.ofList_eq_empty_iff]
      exact Entity.decode_ne_nil (List.cons_ne_nil _ _)

/-- Every token of a text is sound. -/
theorem sound_scan (s : List Char) : ∀ t ∈ scan s, t.Sound := by
  fun_induction scan s with
  | case1 => exact List.forall_mem_nil _
  | case2 c s _ ih =>
    intro t member
    rcases List.mem_append.mp member with here | later
    · exact sound_next c s t (Option.mem_toList.mp here)
    · exact ih t later

end Token

namespace Markup

/-- An open element that will be sound once it is closed. -/
structure OpenElement.Sound (e : OpenElement) : Prop where
  isTag : IsTag e.tag
  names : ∀ a ∈ e.attributes, IsName a.1
  distinct : (e.attributes.map Prod.fst).Nodup
  inner : isVoid e.tag = false
  before : ∀ m ∈ e.before, m.Sound

structure Building.Sound (b : Building) : Prop where
  stack : ∀ e ∈ b.stack, e.Sound
  content : ∀ m ∈ b.content, m.Sound

namespace Building

variable {b : Building}

theorem Sound.add (sound : b.Sound) {m : Markup} (added : m.Sound) : (b.add m).Sound :=
  ⟨sound.stack, List.forall_mem_cons.mpr ⟨added, sound.content⟩⟩

theorem Sound.closeInnermost (sound : b.Sound) : b.closeInnermost.Sound := by
  unfold Building.closeInnermost
  split
  · exact sound
  · rename_i top stack shape
    obtain ⟨first, later⟩ := List.forall_mem_cons.mp (shape ▸ sound.stack)
    refine ⟨later, List.forall_mem_cons.mpr ⟨?_, first.before⟩⟩
    refine .element first.isTag first.names first.distinct (fun isVoid => ?_) fun m member => ?_
    · cases first.inner.symm.trans isVoid
    · exact sound.content m (List.mem_reverse.mp member)

theorem Sound.closeThrough {tag : String} {stack : List OpenElement} (sound : b.Sound) :
    (Building.closeThrough tag stack b).Sound := by
  induction stack generalizing b with
  | nil => exact sound
  | cons top rest ih =>
    rw [Building.closeThrough]
    split
    · exact sound.closeInnermost
    · exact ih sound.closeInnermost

theorem Sound.closeAll {stack : List OpenElement} (sound : b.Sound) :
    (Building.closeAll stack b).Sound := by
  induction stack generalizing b with
  | nil => exact sound
  | cons _ rest ih => exact ih sound.closeInnermost

theorem isName_merge {attributes : List (String × String)} (names : ∀ a ∈ attributes, IsName a.1) :
    ∀ a ∈ Entries.merge attributes, IsName a.1 := by
  intro a member
  obtain ⟨b, member, same⟩ := List.mem_map.mp (Entries.mem_names_of_merge member)
  exact same ▸ names b member

theorem Sound.step (sound : b.Sound) {t : Token} (token : t.Sound) : (b.step t).Sound := by
  cases t with
  | opening tag attributes selfClosing =>
    obtain ⟨isTag, names⟩ := token
    have distinct := Entries.nodup_merge attributes
    rw [Building.step]
    split
    · exact sound.add (.element isTag (isName_merge names) distinct (fun _ => rfl) nofun)
    · rename_i inner
      have inner :
          isVoid tag = false := by simpa using (not_or.mp (mt Bool.or_eq_true_iff.mpr inner)).2
      exact ⟨List.forall_mem_cons.mpr ⟨⟨isTag, isName_merge names, distinct, inner, sound.content⟩,
        sound.stack⟩, nofun⟩
  | closing tag =>
    rw [Building.step, Building.closeTag]
    split
    · exact sound.closeThrough
    · exact sound
  | comment data => exact sound.add (.comment token)
  | text data => exact sound.add (.text token)

theorem Sound.foldl (sound : b.Sound) {tokens : List Token} (each : ∀ t ∈ tokens, t.Sound) :
    (tokens.foldl Building.step b).Sound := by
  induction tokens generalizing b with
  | nil => exact sound
  | cons t rest ih =>
    obtain ⟨first, later⟩ := List.forall_mem_cons.mp each
    exact ih (sound.step first) later

end Building

/-- Whatever is parsed, what it gives can be written down and read back. -/
theorem sound_parse (markup : String) : ∀ m ∈ parse markup, m.Sound := by
  have start : Building.Sound {} := ⟨nofun, nofun⟩
  have built := start.foldl (Token.sound_scan markup.toList)
  exact fun m member => built.closeAll.content m (List.mem_reverse.mp member)

end Markup
end ReactiveView
