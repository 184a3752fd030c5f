import Mathlib.Data.List.DropRight
import ReactiveView.Proofs.Markup.Shape
import ReactiveView.Proofs.Text.Runs

/-! Scanning what was written. Each piece of markup is scanned as the tokens it was written as, and
the scan ends where the piece ends: a text at the next bracket, a tag at its own closing sign, a
comment at the first end of a comment. -/
namespace ReactiveView

namespace Token

theorem scan_cons (c : Char) (s : List Char) :
    scan (c :: s) = (next c s).1.toList ++ scan (next c s).2 := by
  rw [scan]

theorem through_single {x : Char} {s : List Char} (absent : x ∉ s) (rest : List Char) :
    through [x] (s ++ x :: rest) = (s, rest) := by
  induction s with
  | nil => simp [through]
  | cons c s ih =>
    obtain ⟨differs, absent⟩ := not_or.mp (mt List.mem_cons.mpr absent)
    rw [List.cons_append, through, if_neg (by simpa using differs), ih absent]

/-- A comment ends at the first end of a comment, also when its last characters are dashes. -/
theorem through_comment {s : List Char} (absent : ¬ "-->".toList <:+: s) (rest : List Char) :
    through "-->".toList (s ++ "-->".toList ++ rest) = (s, rest) := by
  induction s with
  | nil => simp [through]
  | cons c s ih =>
    obtain ⟨here, later⟩ := not_or.mp (mt List.infix_cons_iff.mpr absent)
    have notHere : ¬ "-->".toList <+: c :: s ++ "-->".toList ++ rest := by
      rcases s with _ | ⟨d, _ | ⟨e, s⟩⟩
      · simp [List.cons_prefix_cons]
      · simp [List.cons_prefix_cons]
      · simpa [List.cons_prefix_cons] using here
    rw [List.cons_append, List.cons_append] at notHere ⊢
    rw [through, if_neg (mt List.isPrefixOf_iff_prefix.mp notHere), ih later]

/-- Where a text ends: at the start of a tag, or with the input. -/
def Opens (s : List Char) : Prop :=
  s = [] ∨ startsTag s = true

theorem startsTag_cons {c : Char} (other : c ≠ '<') (s : List Char) :
    startsTag (c :: s) = false := by
  unfold startsTag
  split
  · simp_all
  · rfl

theorem textRun_append {s rest : List Char} (absent : '<' ∉ s) (opens : Opens rest) :
    textRun (s ++ rest) = (s, rest) := by
  induction s with
  | nil =>
    rcases rest with _ | ⟨c, rest⟩
    · rfl
    · have starts : startsTag (c :: rest) = true := opens.resolve_left nofun
      simp [textRun, starts]
  | cons c s ih =>
    obtain ⟨differs, absent⟩ := not_or.mp (mt List.mem_cons.mpr absent)
    rw [List.cons_append, textRun, startsTag_cons (Ne.symm differs), ih absent]
    rfl

theorem scan_text {s rest : List Char} (some : s ≠ []) (absent : '<' ∉ s) (opens : Opens rest) :
    scan (s ++ rest) = .text (String.ofList (Entity.decode s)) :: scan rest := by
  cases s with
  | nil => exact (some rfl).elim
  | cons c s =>
    obtain ⟨differs, later⟩ := not_or.mp (mt List.mem_cons.mpr absent)
    have found : next c (s ++ rest) =
        (Option.some (.text (String.ofList (Entity.decode (c :: s)))), rest) := by
      rw [next.eq_def]
      split
      · simp_all
      · simp_all
      · simp_all
      · rw [startsTag_cons (Ne.symm differs), textRun_append later opens]
        rfl
    rw [List.cons_append, scan_cons, found]
    rfl

theorem scan_comment {data : List Char} (absent : ¬ "-->".toList <:+: data) (rest : List Char) :
    scan ("<!--".toList ++ data ++ "-->".toList ++ rest) =
      .comment (String.ofList data) :: scan rest := by
  have found : next '<' ('!' :: '-' :: '-' :: (data ++ "-->".toList ++ rest)) =
      (some (.comment (String.ofList data)), rest) := by
    rw [next, through_comment absent]
  show scan ('<' :: '!' :: '-' :: '-' :: (data ++ "-->".toList ++ rest)) = _
  rw [scan_cons, found]
  rfl

theorem isLetter_iff (c : Char) :
    isLetter c = true ↔ 65 ≤ c.toNat ∧ c.toNat ≤ 90 ∨ 97 ≤ c.toNat ∧ c.toNat ≤ 122 :=
  Bool.or_eq_true_iff.trans (or_congr (Text.isUpper_iff c) (Text.isLower_iff c))

theorem isTagChar_iff (c : Char) :
    isTagChar c = true ↔ Text.isBlank c = false ∧ c ≠ '>' ∧ c ≠ '/' := by
  simp [isTagChar, and_assoc]

theorem scan_closing {tag : String} (isTag : Markup.IsTag tag) (rest : List Char) :
    scan (Markup.writeClosing tag ++ rest) = .closing tag :: scan rest := by
  have inner : ∀ c ∈ tag.toList, Text.isBlank c = false ∧ c ≠ '>' ∧ c ≠ '/' :=
    fun c member => (isTagChar_iff c).mp (isTag.inner c member)
  have ends : '>' ∉ tag.toList := fun member => (inner _ member).2.1 rfl
  have found : next '<' ('/' :: (tag.toList ++ '>' :: rest)) = (some (.closing tag), rest) := by
    rw [next, through_single ends]
    simp only
    rw [Text.trim_of_not_isBlank fun c member => (inner c member).1, String.ofList_toList,
      Text.lower_eq isTag.small]
  have written : Markup.writeClosing tag ++ rest = '<' :: '/' :: (tag.toList ++ '>' :: rest) := by
    simp [Markup.writeClosing]
  rw [written, scan_cons, found]
  rfl

theorem isNameChar_iff (c : Char) :
    isNameChar c = true ↔ Text.isBlank c = false ∧ c ≠ '=' ∧ c ≠ '>' ∧ c ≠ '/' := by
  simp [isNameChar, and_assoc]

section Opening

variable {s rest : List Char}

theorem attributes_end (found : Text.trimStart s = '>' :: rest) :
    attributes s = ([], false, rest) := by
  rw [attributes.eq_def]
  split <;> simp_all

theorem attributes_name {c : Char} (found : Text.trimStart s = c :: rest)
    (inner : isNameChar c = true) :
    attributes s =
      ((String.ofList (c :: rest.takeWhile isNameChar),
          String.ofList (assignment (rest.dropWhile isNameChar)).1) ::
        (attributes (assignment (rest.dropWhile isNameChar)).2).1,
        (attributes (assignment (rest.dropWhile isNameChar)).2).2) := by
  obtain ⟨-, -, notEnd, notSlash⟩ := (isNameChar_iff c).mp inner
  rw [attributes.eq_def]
  split <;> grind

/-- What stands behind an attribute name that is written without a value. -/
theorem assignment_bare {c : Char} (found : Text.trimStart s = c :: rest) (other : c ≠ '=') :
    assignment s = ([], c :: rest) := by
  unfold assignment
  rw [found]
  split <;> simp_all

theorem assignment_quoted {data : List Char} (absent : '"' ∉ data) (rest : List Char) :
    assignment ('=' :: '"' :: (data ++ '"' :: rest)) = (Entity.decode data, rest) := by
  have behind :=
    Text.trimStart_of_not_isBlank (by decide : Text.isBlank '"' = false) (data ++ '"' :: rest)
  unfold assignment
  rw [Text.trimStart_of_not_isBlank (by decide)]
  simp only [behind, value, through_single absent]

theorem shape_of_isName {name : String} (isName : Markup.IsName name) :
    ∃ c n, name.toList = c :: n ∧ isNameChar c = true ∧ ∀ x ∈ n, isNameChar x = true := by
  cases shape : name.toList with
  | nil => exact (isName.nonempty (String.toList_eq_nil_iff.mp shape)).elim
  | cons c n =>
    have inner := isName.inner
    rw [shape, List.forall_mem_cons] at inner
    exact ⟨c, n, rfl, inner⟩

/-- A value as it stands behind its name. -/
def assigned (value : String) : List Char :=
  if value = "" then [] else '=' :: '"' :: Entity.escapeAttribute value.toList ++ ['"']

theorem writeAttribute_append {a : String × String} {c : Char} {n : List Char}
    (shape : a.1.toList = c :: n) (behind : List Char) :
    Markup.writeAttribute a ++ behind = ' ' :: c :: (n ++ (assigned a.2 ++ behind)) := by
  simp [Markup.writeAttribute, assigned, shape]

theorem assignment_assigned (value : String) {behind : List Char} {c : Char} {after : List Char}
    (found : Text.trimStart behind = c :: after) (other : c ≠ '=') :
    (assignment (assigned value ++ behind)).1 = value.toList ∧
      Text.trimStart (assignment (assigned value ++ behind)).2 = Text.trimStart behind := by
  unfold assigned
  split
  · rename_i none
    rw [List.nil_append, assignment_bare found other, none, ← found]
    exact ⟨rfl, List.dropWhile_idempotent _ behind⟩
  · have shape : '=' :: '"' :: Entity.escapeAttribute value.toList ++ ['"'] ++ behind =
        '=' :: '"' :: (Entity.escapeAttribute value.toList ++ '"' :: behind) := by simp
    rw [shape, assignment_quoted (Entity.not_mem_escapeAttribute _), Entity.decode_escapeAttribute]
    exact ⟨rfl, rfl⟩

/-- The attributes of a tag and the end of the tag. -/
def ending (attrs : List (String × String)) (rest : List Char) : List Char :=
  attrs.flatMap Markup.writeAttribute ++ '>' :: rest

theorem ending_cons {a : String × String} {c : Char} {n : List Char} (shape : a.1.toList = c :: n)
    (attrs : List (String × String)) (rest : List Char) :
    ending (a :: attrs) rest = ' ' :: c :: (n ++ (assigned a.2 ++ ending attrs rest)) := by
  rw [ending, List.flatMap_cons, List.append_assoc, writeAttribute_append shape, ending]

/-- Before each attribute stands a blank. -/
theorem head_ending (attrs : List (String × String)) (rest : List Char) :
    ∀ c ∈ (ending attrs rest).head?, c = ' ' ∨ c = '>' := by
  cases attrs with
  | nil => simp [ending]
  | cons a attrs => simp [ending, Markup.writeAttribute]

theorem trimStart_ending_cons {a : String × String} {c : Char} {n : List Char}
    (shape : a.1.toList = c :: n) (inner : isNameChar c = true) (attrs : List (String × String))
    (rest : List Char) : Text.trimStart (ending (a :: attrs) rest) =
      c :: (n ++ (assigned a.2 ++ ending attrs rest)) := by
  rw [ending_cons shape]
  exact Text.trimStart_of_not_isBlank ((isNameChar_iff c).mp inner).1 _

/-- Behind an attribute stands another name, or the end of the tag. -/
theorem trimStart_ending {attrs : List (String × String)} (names : ∀ a ∈ attrs, Markup.IsName a.1)
    (rest : List Char) : ∃ c behind, Text.trimStart (ending attrs rest) = c :: behind ∧
      c ≠ '=' := by
  cases attrs with
  | nil => exact ⟨'>', rest, Text.trimStart_of_not_isBlank (by decide) rest, by decide⟩
  | cons a attrs =>
    obtain ⟨c, n, shape, inner, -⟩ := shape_of_isName (names a List.mem_cons_self)
    exact ⟨c, _, trimStart_ending_cons shape inner attrs rest, ((isNameChar_iff c).mp inner).2.1⟩

/-- The attributes of a tag are read as they were written, and the tag ends where it was ended. -/
theorem attributes_ending {attrs : List (String × String)} (names : ∀ a ∈ attrs, Markup.IsName a.1)
    (rest : List Char) {s : List Char}
    (same : Text.trimStart s = Text.trimStart (ending attrs rest)) :
    attributes s = (attrs, false, rest) := by
  induction attrs generalizing s with
  | nil => exact attributes_end (same.trans (Text.trimStart_of_not_isBlank (by decide) rest))
  | cons a attrs ih =>
    obtain ⟨first, later⟩ := List.forall_mem_cons.mp names
    obtain ⟨c, n, shape, head, inner⟩ := shape_of_isName first
    obtain ⟨x, after, found, other⟩ := trimStart_ending later rest
    have ends : ∀ c ∈ (assigned a.2 ++ ending attrs rest).head?, isNameChar c = false := by
      intro x member
      by_cases bare : a.2 = ""
      · rw [assigned, if_pos bare, List.nil_append] at member
        rcases head_ending attrs rest x member with rfl | rfl <;> decide
      · rw [assigned, if_neg bare] at member
        obtain rfl : '=' = x := by simpa using member
        decide
    obtain ⟨name, remains⟩ := Text.run_append inner ends
    obtain ⟨value, behind⟩ := assignment_assigned a.2 found other
    rw [attributes_name (same.trans (trimStart_ending_cons shape head attrs rest)) head,
      name, remains, ih later behind, value, ← shape, String.ofList_toList, String.ofList_toList]

theorem scan_opening {tag : String} (isTag : Markup.IsTag tag) {attrs : List (String × String)}
    (names : ∀ a ∈ attrs, Markup.IsName a.1) (rest : List Char) :
    scan (Markup.writeOpening tag attrs ++ rest) = .opening tag attrs false :: scan rest := by
  obtain ⟨c, t, shape, letter⟩ := isTag.letter
  have ends : ∀ c ∈ (ending attrs rest).head?, isTagChar c = false := by
    intro x member
    rcases head_ending attrs rest x member with rfl | rfl <;> decide
  obtain ⟨name, remains⟩ := Text.run_append isTag.inner ends
  have found : next '<' (tag.toList ++ ending attrs rest) =
      (some (.opening tag attrs false), rest) := by
    have starts : startsTag ('<' :: (tag.toList ++ ending attrs rest)) = true := by
      simp [shape, startsTag, letter]
    have notMark : c ≠ '!' ∧ c ≠ '/' := by
      constructor <;> rintro rfl <;> cases letter
    rw [next.eq_def]
    split
    · simp_all
    · simp_all
    · simp_all
    · simp only [starts, if_true, name, remains, String.ofList_toList, Text.lower_eq isTag.small,
        attributes_ending names rest rfl]
  have written :
      Markup.writeOpening tag attrs ++ rest = '<' :: (tag.toList ++ ending attrs rest) := by
    simp [Markup.writeOpening, ending]
  rw [written, scan_cons, found]
  rfl

end Opening

end Token
end ReactiveView
