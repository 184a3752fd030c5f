import ReactiveView.Markup.Cursor
import ReactiveView.Proofs.Markup.Scanning
import ReactiveView.Proofs.Text.Slicing

/-! Reading by positions is scanning. A cursor that stands in front of the rest of a text reads what
the scan of this rest reads, and then stands in front of what the scan leaves, so that it never
stands anywhere else than between two characters or at an end. -/
namespace ReactiveView

namespace Token

variable {pattern s : List Char}

theorem through_suffix (pattern s : List Char) : (through pattern s).2 <:+ s := by
  induction s with
  | nil => exact List.suffix_rfl
  | cons c s ih =>
    rw [through]
    split
    · exact List.drop_suffix _ _
    · exact ih.trans (List.suffix_cons c s)

/-- Whether the pattern occurs or not, the search agrees with the scan. -/
theorem through_cases (pattern s : List Char) (i : Nat) :
    Text.occursFrom? pattern i s = none ∧ through pattern s = (s, []) ∨
      ∃ before behind, s = before ++ pattern ++ behind ∧
        Text.occursFrom? pattern i s = some (i + Text.bytes before) ∧
        through pattern s = (before, behind) := by
  induction s generalizing i with
  | nil => exact .inl ⟨rfl, rfl⟩
  | cons c s ih =>
    rw [Text.occursFrom?, through]
    split
    · rename_i here
      obtain ⟨behind, same⟩ := List.isPrefixOf_iff_prefix.mp here
      refine .inr ⟨[], behind, same.symm, rfl, ?_⟩
      rw [← same, List.drop_left]
    · obtain ⟨absent, all⟩ | ⟨before, behind, rfl, found, split⟩ := ih (i + c.utf8Size)
      · exact .inl ⟨absent, by rw [all]⟩
      · refine .inr ⟨c :: before, behind, rfl, ?_, by rw [split]⟩
        rw [found, Text.bytes_cons, Nat.add_assoc]

theorem value_suffix (s : List Char) : (value s).2 <:+ s := by
  unfold value
  split
  · exact (through_suffix _ _).trans (List.suffix_cons _ _)
  · exact (through_suffix _ _).trans (List.suffix_cons _ _)
  · exact List.dropWhile_suffix _

theorem assignment_suffix (s : List Char) : (assignment s).2 <:+ s := by
  unfold assignment
  split
  · rename_i rest found
    have behind : '=' :: rest <:+ s := found ▸ List.dropWhile_suffix Text.isBlank
    exact ((value_suffix _).trans (List.dropWhile_suffix _)).trans
      ((List.suffix_cons _ _).trans behind)
  · exact List.dropWhile_suffix _

theorem attributes_suffix (s : List Char) : (attributes s).2.2 <:+ s := by
  have trimmed : Text.trimStart s <:+ s := List.dropWhile_suffix _
  fun_induction attributes s with
  | case1 => exact List.nil_suffix
  | case2 s rest found =>
    rw [found] at trimmed
    exact ((List.suffix_cons _ _).trans (List.suffix_cons _ _)).trans trimmed
  | case3 s rest found =>
    rw [found] at trimmed
    exact (List.suffix_cons _ _).trans trimmed
  | case4 s c rest _ _ found _ _ _ _ _ more ending same ih =>
    rw [same] at ih
    rw [found] at trimmed
    have names : (assignment (rest.dropWhile isNameChar)).2 <:+ rest :=
      (assignment_suffix _).trans (List.dropWhile_suffix _)
    exact ((ih (List.dropWhile_suffix _)).trans names).trans ((List.suffix_cons _ _).trans trimmed)
  | case5 s c rest _ _ found _ _ ih =>
    rw [found] at trimmed
    exact (ih (List.dropWhile_suffix _)).trans ((List.suffix_cons _ _).trans trimmed)

theorem textRun_cons {c : Char} (plain : startsTag (c :: s) = false) :
    textRun (c :: s) = (c :: (textRun s).1, (textRun s).2) := by
  rw [textRun, plain]
  rfl

theorem textRun_split (s : List Char) : (textRun s).1 ++ (textRun s).2 = s := by
  induction s with
  | nil => rfl
  | cons c s ih =>
    rw [textRun]
    split
    · rfl
    · exact congrArg (c :: ·) ih

theorem next_suffix (c : Char) (s : List Char) : (next c s).2 <:+ s := by
  fun_cases next c s with
  | case1 s before behind split =>
    have within := through_suffix "-->".toList s
    rw [split] at within
    exact within.trans ⟨['!', '-', '-'], rfl⟩
  | case2 s => exact (through_suffix _ s).trans (List.suffix_cons _ _)
  | case3 s before behind split =>
    have within := through_suffix ['>'] s
    rw [split] at within
    exact within.trans (List.suffix_cons _ _)
  | case4 c s _ _ _ _ tag attrs selfClosing behind read =>
    have within := attributes_suffix (s.dropWhile isTagChar)
    rw [read] at within
    exact within.trans (List.dropWhile_suffix _)
  | case5 c s _ _ _ _ run behind read =>
    have divided := textRun_split s
    rw [read] at divided
    exact ⟨run, divided⟩

/-- A turn leaves less of the text than there was. -/
theorem next_leaves (c : Char) (s : List Char) :
    (next c s).2 <:+ c :: s ∧ (next c s).2.length < (c :: s).length :=
  ⟨(next_suffix c s).trans (List.suffix_cons c s), Nat.lt_succ_of_le (next_length c s)⟩

end Token

namespace Cursor

open Text Token

variable {text s rest ahead : List Char} {p : Char → Bool}

/-- The cursor in front of the rest of a text. -/
def facing (text rest : List Char) : Cursor :=
  ⟨String.ofList text, ⟨bytes text - bytes rest⟩⟩

theorem facing_append (before rest : List Char) :
    facing (before ++ rest) rest = ⟨String.ofList (before ++ rest), ⟨bytes before⟩⟩ := by
  rw [facing, bytes_append, Nat.add_sub_cancel]

theorem facing_self (text : List Char) : facing text text = ⟨String.ofList text, 0⟩ := by
  rw [facing, Nat.sub_self]
  rfl

theorem facing_nil (text : List Char) :
    facing text [] = ⟨String.ofList text, (String.ofList text).rawEndPos⟩ := rfl

theorem isValid_facing (suffix : rest <:+ text) :
    (facing text rest).pos.IsValid (String.ofList text) := by
  obtain ⟨before, rfl⟩ := suffix
  rw [facing_append]
  exact isValid_append before rest

theorem rest?_facing (suffix : rest <:+ text) :
    (facing text rest).rest? = some (String.ofList rest) := by
  obtain ⟨before, rfl⟩ := suffix
  rw [facing_append]
  exact behind?_append before rest

theorem advance_facing (ahead : List Char) (suffix : ahead ++ rest <:+ text) :
    (facing text (ahead ++ rest)).advance (bytes ahead) = facing text rest := by
  obtain ⟨before, rfl⟩ := suffix
  rw [facing_append, advance, ← List.append_assoc, facing_append, bytes_append]

theorem atEnd_facing (suffix : rest <:+ text) : (facing text rest).atEnd = true ↔ rest = [] := by
  obtain ⟨before, rfl⟩ := suffix
  rw [facing_append, atEnd, decide_eq_true_iff, ← bytes_eq_zero_iff]
  show bytes (before ++ rest) ≤ bytes before ↔ _
  rw [bytes_append]
  omega

theorem left_facing (suffix : rest <:+ text) : (facing text rest).left = bytes rest := by
  obtain ⟨before, rfl⟩ := suffix
  rw [facing_append, left]
  show bytes (before ++ rest) - bytes before = bytes rest
  rw [bytes_append, Nat.add_sub_cancel_left]

/-- In front of fewer characters fewer bytes are left. -/
theorem left_lt_facing (suffix : s <:+ text) (within : rest <:+ s) (less : rest.length < s.length) :
    (facing text rest).left < (facing text s).left := by
  rw [left_facing suffix, left_facing (within.trans suffix)]
  obtain ⟨ahead, rfl⟩ := within
  have filled : bytes ahead ≠ 0 := fun none => by
    rw [bytes_eq_zero_iff.mp none] at less
    exact Nat.lt_irrefl _ less
  rw [bytes_append]
  omega

/-- Reading characters of a known length. -/
theorem cut_facing (divided : ahead ++ rest = s) (suffix : s <:+ text) :
    upTo? (String.ofList s) ⟨bytes ahead⟩ = some (String.ofList ahead) ∧
      (facing text s).advance (bytes ahead) = facing text rest := by
  subst divided
  exact ⟨upTo?_append ahead rest, advance_facing ahead suffix⟩

theorem run?_facing (suffix : s <:+ text) : (facing text s).run? p =
    some (String.ofList (s.takeWhile p), facing text (s.dropWhile p)) := by
  obtain ⟨front, onward⟩ := cut_facing (List.takeWhile_append_dropWhile (p := p)) suffix
  simp only [run?, rest?_facing suffix, Option.bind_eq_bind, Option.bind_some,
    Option.pure_def, runEnd_eq, front, onward]

theorem through?_facing (suffix : s <:+ text) (pattern : String) :
    (facing text s).through? pattern =
      some (String.ofList (through pattern.toList s).1,
        facing text (through pattern.toList s).2) := by
  simp only [through?, rest?_facing suffix, Option.bind_eq_bind, Option.bind_some, Option.pure_def,
    occurs?, String.toList_ofList]
  obtain ⟨absent, all⟩ | ⟨before, behind, same, found, split⟩ := through_cases pattern.toList s 0
  · rw [absent, all]
    rfl
  · have length : bytes pattern.toList = pattern.utf8ByteSize := by rw [bytes, String.ofList_toList]
    have front := (cut_facing ((List.append_assoc _ _ _).symm.trans same.symm) suffix).1
    have onward := (cut_facing same.symm suffix).2
    rw [bytes_append, length] at onward
    simp only [found, split, Nat.zero_add, front, Option.bind_some, onward]

theorem value?_facing (suffix : s <:+ text) : (facing text s).value? =
    some (String.ofList (value s).1, facing text (value s).2) := by
  simp only [value?, rest?_facing suffix, Option.bind_eq_bind, Option.bind_some,
    String.toList_ofList]
  fun_cases value s with
  | case1 rest =>
    have onward : (facing text ('"' :: rest)).advance 1 = facing text rest :=
      advance_facing ['"'] suffix
    simp only [onward]
    exact through?_facing ((List.suffix_cons _ _).trans suffix) "\""
  | case2 rest =>
    have onward : (facing text ('\'' :: rest)).advance 1 = facing text rest :=
      advance_facing ['\''] suffix
    simp only [onward]
    exact through?_facing ((List.suffix_cons _ _).trans suffix) "'"
  | case3 s notDouble notSingle =>
    split
    · exact (notDouble _ rfl).elim
    · exact (notSingle _ rfl).elim
    · exact run?_facing suffix

theorem assignment?_facing (suffix : s <:+ text) : (facing text s).assignment? =
    some (String.ofList (assignment s).1, facing text (assignment s).2) := by
  have blanks : trimStart s <:+ text := (List.dropWhile_suffix _).trans suffix
  simp only [assignment?, run?_facing suffix, Option.bind_eq_bind, Option.bind_some,
    Option.pure_def]
  rw [← trimStart, rest?_facing blanks]
  simp only [Option.bind_some, String.toList_ofList]
  fun_cases assignment s with
  | case1 rest found raw behind split =>
    rw [found] at blanks ⊢
    have onward : (facing text ('=' :: rest)).advance 1 = facing text rest :=
      advance_facing ['='] blanks
    have suffix : rest <:+ text := (List.suffix_cons _ _).trans blanks
    have read := value?_facing ((List.dropWhile_suffix isBlank).trans suffix)
    rw [← trimStart, split] at read
    simp only [onward, run?_facing suffix, Option.bind_some]
    rw [← trimStart, read]
    simp only [Option.bind_some, String.toList_ofList]
  | case2 other =>
    split
    · exact (other _ ‹_›).elim
    · rfl

/-- The attributes of a tag as a turn sees them: what it found, and then those behind it. -/
def TagTurn.attributes (rest : List Char) : TagTurn → List (String × String) × Bool × List Char
  | .ended selfClosing => ([], selfClosing, rest)
  | .onward found => (found.toList ++ (Token.attributes rest).1, (Token.attributes rest).2)

/-- A turn that leaves this rest of the text. Either that is less than there was, or nothing was
there, and the loop ends. -/
structure TagTurn.Leaves (turn : TagTurn) (s rest : List Char) : Prop where
  suffix : rest <:+ s
  progress : rest.length < s.length ∨ s = [] ∧ turn = .ended false
  attributes : Token.attributes s = turn.attributes rest

theorem suffix_behind (some : ahead ≠ []) (within : ahead ++ rest <:+ s) :
    rest <:+ s ∧ rest.length < s.length := by
  have length := within.length_le
  have filled := List.length_pos_iff.mpr some
  rw [List.length_append] at length
  exact ⟨(List.suffix_append ahead rest).trans within, by omega⟩

/-- A character between the attributes of a tag that is part of no name is an equals sign or a
slash, so that a step of one byte passes it. -/
theorem bytes_stray {c : Char} (visible : isBlank c = false) (notEnd : c ≠ '>')
    (other : ¬ isNameChar c = true) : bytes [c] = 1 := by
  have stray : c = '=' ∨ c = '/' := by
    by_contra neither
    obtain ⟨notEquals, notSlash⟩ := not_or.mp neither
    exact other ((isNameChar_iff c).mpr ⟨visible, notEquals, notEnd, notSlash⟩)
  obtain rfl | rfl := stray <;> rfl

/-- A turn begins behind the blanks. -/
theorem tagTurn?_trimmed (suffix : s <:+ text) : (facing text s).tagTurn? =
    (facing text (trimStart s)).visibleTurn? (trimStart s) := by
  have blanks : trimStart s <:+ text := (List.dropWhile_suffix isBlank).trans suffix
  simp only [tagTurn?, run?_facing suffix, Option.bind_eq_bind, Option.bind_some]
  rw [← trimStart, rest?_facing blanks, Option.bind_some, String.toList_ofList]

/-- Where the tag does not end, a turn reads an attribute or passes a stray sign. -/
theorem tagTurn?_onward (suffix : s <:+ text) {c : Char} (found : trimStart s = c :: rest)
    (notClosed : ∀ more, c = '/' → rest = '>' :: more → False) (notEnd : c ≠ '>') :
    (facing text s).tagTurn? =
      if isNameChar c then
        some (.onward (some (String.ofList (c :: rest.takeWhile isNameChar),
          String.ofList (assignment (rest.dropWhile isNameChar)).1)),
          facing text (assignment (rest.dropWhile isNameChar)).2)
      else some (.onward none, facing text rest) := by
  have blanks : c :: rest <:+ text := found ▸ (List.dropWhile_suffix isBlank).trans suffix
  rw [tagTurn?_trimmed suffix, found, visibleTurn?.eq_def]
  split
  · rename_i none
    cases none
  · rename_i same
    exact (notClosed _ (List.cons.inj same).1 (List.cons.inj same).2).elim
  · rename_i same
    exact (notEnd (List.cons.inj same).1).elim
  · simp only [run?_facing blanks, Option.bind_eq_bind, Option.bind_some, Option.pure_def]
    by_cases named : isNameChar c = true
    · have behind : rest.dropWhile isNameChar <:+ text :=
        ((List.dropWhile_suffix _).trans (List.suffix_cons c rest)).trans blanks
      rw [List.takeWhile_cons_of_pos named, List.dropWhile_cons_of_pos named, if_neg (by simp),
        assignment?_facing behind, if_pos named]
      rfl
    · have visible : isBlank c = false := head?_trimStart s c (by rw [found]; rfl)
      have onward := advance_facing [c] blanks
      rw [bytes_stray visible notEnd named] at onward
      rw [List.takeWhile_cons_of_neg named, List.dropWhile_cons_of_neg named, if_pos rfl,
        if_neg named]
      exact congrArg (fun c => some (TagTurn.onward none, c)) onward

theorem tagTurn?_facing (suffix : s <:+ text) : ∃ turn rest,
    (facing text s).tagTurn? = some (turn, facing text rest) ∧ turn.Leaves s rest := by
  -- The parts are stated openly, so that the case split gets at the attributes among them.
  suffices ∃ turn rest, (facing text s).tagTurn? = some (turn, facing text rest) ∧ rest <:+ s ∧
      (rest.length < s.length ∨ s = [] ∧ turn = .ended false) ∧
      Token.attributes s = turn.attributes rest by
    obtain ⟨turn, rest, run, within, progress, same⟩ := this
    exact ⟨turn, rest, run, within, progress, same⟩
  have trimmed : trimStart s <:+ s := List.dropWhile_suffix _
  have blanks := trimmed.trans suffix
  fun_cases Token.attributes s with
  | case1 found =>
    have ended : (facing text s).tagTurn? = some (.ended false, facing text []) := by
      rw [tagTurn?_trimmed suffix, found, visibleTurn?]
    refine ⟨_, _, ended, List.nil_suffix, ?_, rfl⟩
    cases s with
    | nil => exact .inr ⟨rfl, rfl⟩
    | cons c s => exact .inl (Nat.zero_lt_succ _)
  | case2 rest found =>
    rw [found] at trimmed blanks
    have ended : (facing text s).tagTurn? = some (.ended true, facing text rest) := by
      rw [tagTurn?_trimmed suffix, found, ← advance_facing ['/', '>'] blanks]
      rfl
    obtain ⟨within, less⟩ := suffix_behind (List.cons_ne_nil '/' ['>']) trimmed
    exact ⟨_, _, ended, within, .inl less, rfl⟩
  | case3 rest found =>
    rw [found] at trimmed blanks
    have ended : (facing text s).tagTurn? = some (.ended false, facing text rest) := by
      rw [tagTurn?_trimmed suffix, found, ← advance_facing ['>'] blanks]
      rfl
    obtain ⟨within, less⟩ := suffix_behind (List.cons_ne_nil '>' []) trimmed
    exact ⟨_, _, ended, within, .inl less, rfl⟩
  | case4 c rest notClosed notEnd found bound named shorter name assigned more ending split =>
    rw [found] at trimmed
    have names : (assignment (rest.dropWhile isNameChar)).2 <:+ rest :=
      (assignment_suffix _).trans (List.dropWhile_suffix _)
    obtain ⟨within, less⟩ := suffix_behind (List.cons_ne_nil c []) trimmed
    refine ⟨_, _, (tagTurn?_onward suffix found notClosed notEnd).trans (if_pos named),
      names.trans within, .inl (by omega), ?_⟩
    rw [TagTurn.attributes, split]
    rfl
  | case5 c rest notClosed notEnd found bound other =>
    rw [found] at trimmed
    obtain ⟨within, less⟩ := suffix_behind (List.cons_ne_nil c []) trimmed
    exact ⟨_, _, (tagTurn?_onward suffix found notClosed notEnd).trans (if_neg other), within,
        .inl less, rfl⟩

/-- The loop over the attributes ends, because each turn but the last one leaves less. -/
theorem attributes?_facing (suffix : s <:+ text) : (facing text s).attributes? =
    some ((Token.attributes s).1, (Token.attributes s).2.1,
      facing text (Token.attributes s).2.2) := by
  induction length : s.length using Nat.strong_induction_on generalizing s with
  | h n ih =>
    subst length
    obtain ⟨turn, rest, run, leaves⟩ := tagTurn?_facing suffix
    rw [attributes?, run, leaves.attributes]
    cases turn with
    | ended selfClosing => rfl
    | onward found =>
      have less : rest.length < s.length := leaves.progress.resolve_right fun ⟨_, ended⟩ =>
        nomatch ended
      have moved := left_lt_facing suffix leaves.suffix less
      simp only [Option.bind_eq_bind, Option.bind_some, if_pos moved,
        ih rest.length less (leaves.suffix.trans suffix) rfl, Option.pure_def, TagTurn.attributes]

theorem tagName?_facing (suffix : '<' :: s <:+ text) : (facing text ('<' :: s)).tagName? =
    some (String.ofList (s.takeWhile isTagChar), facing text (s.dropWhile isTagChar)) := by
  rw [tagName?, ← run?_facing ((List.suffix_cons _ s).trans suffix)]
  exact congrArg (run? isTagChar) (advance_facing ['<'] suffix)

theorem startsTagAt?_append {before : List Char} (some : before ≠ []) (s : List Char) :
    startsTagAt? (String.ofList (before ++ s)) (bytes before) = Option.some (startsTag s) := by
  rw [startsTagAt?, if_neg (mt bytes_eq_zero_iff.mp some), behind?_append]
  exact congrArg (Option.some ∘ startsTag) String.toList_ofList

/-- The search for the end of a text finds the place where the run of the text ends. -/
theorem findM?_brackets {before : List Char} (some : before ≠ []) (s : List Char) :
    (((positions (bytes before) s).filter fun (_, c) => c = '<').map Prod.fst).findM?
        (startsTagAt? (String.ofList (before ++ s))) =
      Option.some (if (textRun s).2 = [] then none
        else Option.some (bytes before + bytes (textRun s).1)) := by
  induction s generalizing before with
  | nil => rfl
  | cons c s ih =>
    have later := ih (List.append_ne_nil_of_right_ne_nil before (List.cons_ne_nil c []))
    rw [List.append_assoc, List.singleton_append, bytes_append, bytes_cons, bytes_nil, Nat.add_zero]
      at later
    have passed (plain : startsTag (c :: s) = false) :
        (if (textRun s).2 = [] then none
          else Option.some (bytes before + c.utf8Size + bytes (textRun s).1)) =
        if (textRun (c :: s)).2 = [] then none
          else Option.some (bytes before + bytes (textRun (c :: s)).1) := by
      rw [textRun_cons plain, bytes_cons, Nat.add_assoc]
    rw [positions]
    by_cases bracket : c = '<'
    · rw [List.filter_cons_of_pos (by simpa using bracket), List.map_cons, List.findM?,
        startsTagAt?_append some (c :: s)]
      cases starts : startsTag (c :: s) with
      | true =>
        rw [textRun, starts]
        rfl
      | false => exact later.trans (congrArg Option.some (passed starts))
    · rw [List.filter_cons_of_neg (by simpa using bracket), later,
        passed (startsTag_cons bracket s)]

theorem textEnd?_eq (c : Char) (s : List Char) :
    textEnd? (String.ofList (c :: s)) = some (bytes (c :: (textRun s).1)) := by
  have later := findM?_brackets (List.cons_ne_nil c []) s
  have divided := textRun_split s
  rw [bytes_cons, bytes_nil, Nat.add_zero, List.singleton_append] at later
  have skipped : (((positions 0 (c :: s)).filter fun (_, c) => c = '<').map Prod.fst).findM?
      (startsTagAt? (String.ofList (c :: s))) =
        (((positions c.utf8Size s).filter fun (_, c) => c = '<').map Prod.fst).findM?
          (startsTagAt? (String.ofList (c :: s))) := by
    rw [positions, Nat.zero_add]
    by_cases bracket : c = '<'
    · rw [List.filter_cons_of_pos (by simpa using bracket)]
      rfl
    · rw [List.filter_cons_of_neg (by simpa using bracket)]
  simp only [textEnd?, String.toList_ofList, skipped, later, Option.bind_eq_bind, Option.bind_some,
    Option.pure_def, Option.some.injEq]
  split
  · rename_i none
    rw [none, List.append_nil] at divided
    rw [divided]
    rfl
  · rw [bytes_cons]
    rfl

theorem beginning_declaration (notComment : ∀ more, s = '-' :: '-' :: more → False) :
    beginning ('<' :: '!' :: s) = .declaration := by
  unfold beginning
  split <;> simp_all

theorem beginning_eq {c : Char} (notDeclaration : ∀ more, c = '<' → s = '!' :: more → False)
    (notClosing : ∀ more, c = '<' → s = '/' :: more → False) :
    beginning (c :: s) = if startsTag (c :: s) then .opening else .text := by
  unfold beginning
  split <;> simp_all

/-- A turn reads the next token. -/
theorem turn?_facing {c : Char} (suffix : c :: s <:+ text) :
    (facing text (c :: s)).turn? = some ((next c s).1, facing text (next c s).2) := by
  simp only [turn?, rest?_facing suffix, Option.bind_eq_bind, Option.bind_some, Option.pure_def,
    String.toList_ofList]
  fun_cases next c s with
  | case1 s before behind split =>
    have onward : (facing text ('<' :: '!' :: '-' :: '-' :: s)).advance 4 = facing text s :=
      advance_facing "<!--".toList suffix
    have read := through?_facing (List.IsSuffix.trans ⟨"<!--".toList, rfl⟩ suffix) "-->"
    rw [split] at read
    simp only [beginning, onward, read, Option.bind_some]
  | case2 s notComment =>
    have skipped : (through ['>'] ('<' :: '!' :: s)).2 = (through ['>'] s).2 := rfl
    simp only [beginning_declaration notComment, through?_facing suffix ">", Option.bind_some]
    exact congrArg (fun s => some (none, facing text s)) skipped
  | case3 s before behind split =>
    have onward : (facing text ('<' :: '/' :: s)).advance 2 = facing text s :=
      advance_facing "</".toList suffix
    have read := through?_facing (List.IsSuffix.trans ⟨"</".toList, rfl⟩ suffix) ">"
    rw [show ">".toList = ['>'] from rfl, split] at read
    simp only [beginning, onward, read, Option.bind_some, trimmed, String.toList_ofList]
  | case4 c s _ notDeclaration notClosing starts tag attrs selfClosing behind read =>
    have kind : beginning (c :: s) = .opening := by
      rw [beginning_eq notDeclaration notClosing, if_pos starts]
    obtain rfl : c = '<' := by
      by_contra other
      cases (startsTag_cons other s).symm.trans starts
    have inner : s <:+ text := (List.suffix_cons _ s).trans suffix
    have attributes := attributes?_facing ((List.dropWhile_suffix isTagChar).trans inner)
    rw [read] at attributes
    simp only [kind, tagName?_facing suffix, attributes, Option.bind_some]
    rfl
  | case5 c s _ notDeclaration notClosing plain run behind read =>
    have kind : beginning (c :: s) = .text := by
      rw [beginning_eq notDeclaration notClosing, if_neg plain]
    have divided := textRun_split s
    have stop := textEnd?_eq c s
    rw [read] at divided stop
    have whole : c :: run ++ behind = c :: s := congrArg (c :: ·) divided
    obtain ⟨front, onward⟩ := cut_facing whole suffix
    simp only [kind, stop, Option.bind_some, front, onward, String.toList_ofList]

/-- Reading gives the tokens of the scan, and ends at the end. -/
theorem read?_facing (suffix : s <:+ text) :
    (facing text s).read? = some (scan s, facing text []) := by
  fun_induction scan s with
  | case1 =>
    rw [read?, if_pos ((atEnd_facing suffix).mpr rfl)]
    rfl
  | case2 c s _ ih =>
    obtain ⟨within, less⟩ := next_leaves c s
    have moved := left_lt_facing suffix within less
    rw [read?, if_neg (mt (atEnd_facing suffix).mp (List.cons_ne_nil c s)), turn?_facing suffix]
    simp only [Option.bind_eq_bind, Option.bind_some, if_pos moved, ih (within.trans suffix),
      Option.pure_def]

end Cursor
end ReactiveView
