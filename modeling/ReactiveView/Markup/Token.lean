import ReactiveView.Markup.Basic
import ReactiveView.Text.Blank

/-! The tokens of markup: opening and closing tags, comments and text. Scanning is tolerant. An
opening tag starts with an ASCII letter behind the bracket, a bracket that starts no tag is text,
other declarations are skipped, and what is not closed runs to the end of the input. -/
namespace ReactiveView

inductive Token where
  | opening (tag : String) (attributes : List (String × String)) (selfClosing : Bool)
  | closing (tag : String)
  | comment (data : String)
  | text (data : String)
deriving DecidableEq

namespace Token

def isLetter (c : Char) : Bool :=
  c.isAlpha

/-- The text before the first occurrence of a pattern, and the text behind it. -/
def through (pattern : List Char) : List Char → List Char × List Char
  | [] => ([], [])
  | c :: s =>
    if pattern.isPrefixOf (c :: s) then ([], (c :: s).drop pattern.length)
    else
      let (before, behind) := through pattern s
      (c :: before, behind)

theorem through_length (pattern s : List Char) : (through pattern s).2.length ≤ s.length := by
  induction s with
  | nil => simp [through]
  | cons c s ih =>
    simp only [through]
    split
    · simp only [List.length_drop]; omega
    · simp only [List.length_cons]; omega

def isTagChar (c : Char) : Bool :=
  !Text.isBlank c && c != '>' && c != '/'

def isNameChar (c : Char) : Bool :=
  !Text.isBlank c && c != '=' && c != '>' && c != '/'

def isBareChar (c : Char) : Bool :=
  !Text.isBlank c && c != '>'

/-- An attribute value behind its equals sign, quoted or bare. -/
def value : List Char → List Char × List Char
  | '"' :: s => through ['"'] s
  | '\'' :: s => through ['\''] s
  | s => (s.takeWhile isBareChar, s.dropWhile isBareChar)

theorem value_length (s : List Char) : (value s).2.length ≤ s.length := by
  unfold value
  split
  · have := through_length ['"'] ‹_›; simp only [List.length_cons]; omega
  · have := through_length ['\''] ‹_›; simp only [List.length_cons]; omega
  · exact Text.length_dropWhile_le _ _

/-- What stands behind an attribute name: a decoded value behind an equals sign, else nothing. -/
def assignment (s : List Char) : List Char × List Char :=
  match Text.trimStart s with
  | '=' :: rest =>
    let (raw, behind) := value (Text.trimStart rest)
    (Entity.decode raw, behind)
  | rest => ([], rest)

theorem assignment_length (s : List Char) : (assignment s).2.length ≤ s.length := by
  have bound : (Text.trimStart s).length ≤ s.length := Text.length_dropWhile_le _ s
  unfold assignment
  split
  · rename_i rest same
    have inner : (Text.trimStart rest).length ≤ rest.length := Text.length_dropWhile_le _ rest
    have := value_length (Text.trimStart rest)
    rw [same, List.length_cons] at bound
    simp only
    omega
  · assumption

/-- The attributes of a tag up to its end, whether the tag closes itself, and the text behind. -/
def attributes (s : List Char) : List (String × String) × Bool × List Char :=
  match found : Text.trimStart s with
  | [] => ([], false, [])
  | '/' :: '>' :: rest => ([], true, rest)
  | '>' :: rest => ([], false, rest)
  | c :: rest =>
    have bound : (c :: rest).length ≤ s.length := by
      rw [← found]; exact Text.length_dropWhile_le _ s
    if isNameChar c then
      have shorter : (assignment (rest.dropWhile isNameChar)).2.length ≤ rest.length :=
        Nat.le_trans (assignment_length _) (Text.length_dropWhile_le _ _)
      let name := String.ofList (c :: rest.takeWhile isNameChar)
      let assigned := String.ofList (assignment (rest.dropWhile isNameChar)).1
      let (more, ending) := attributes (assignment (rest.dropWhile isNameChar)).2
      ((name, assigned) :: more, ending)
    else attributes rest
termination_by s.length
decreasing_by all_goals simp only [List.length_cons] at *; omega

theorem attributes_length (s : List Char) : (attributes s).2.2.length ≤ s.length := by
  fun_induction attributes s with
  | case1 => simp
  | case2 s rest found =>
    have := Text.length_dropWhile_le Text.isBlank s
    simp only [Text.trimStart] at found
    rw [found] at this
    simp only [List.length_cons] at *
    omega
  | case3 s rest found =>
    have := Text.length_dropWhile_le Text.isBlank s
    simp only [Text.trimStart] at found
    rw [found] at this
    simp only [List.length_cons] at *
    omega
  | case4 => simp_all; omega
  | case5 => simp_all; omega

/-- Whether an opening tag, a closing tag or a declaration starts here. -/
def startsTag : List Char → Bool
  | '<' :: c :: _ => isLetter c || c == '/' || c == '!'
  | _ => false

/-- The text up to the next start of a tag. -/
def textRun : List Char → List Char × List Char
  | [] => ([], [])
  | c :: s =>
    if startsTag (c :: s) then ([], c :: s)
    else
      let (run, behind) := textRun s
      (c :: run, behind)

theorem textRun_length (s : List Char) : (textRun s).2.length ≤ s.length := by
  induction s with
  | nil => simp [textRun]
  | cons c s ih =>
    simp only [textRun]
    split
    · simp
    · simp only [List.length_cons]; omega

/-- One token, or none for a skipped declaration, from a non-empty text, and the text behind. -/
def next (c : Char) (s : List Char) : Option Token × List Char :=
  match c, s with
  | '<', '!' :: '-' :: '-' :: s =>
    let (body, behind) := through "-->".toList s
    (some (.comment (String.ofList body)), behind)
  | '<', '!' :: s => (none, (through ['>'] s).2)
  | '<', '/' :: s =>
    let (name, behind) := through ['>'] s
    (some (.closing (Text.lower (String.ofList (Text.trim name)))), behind)
  | c, s =>
    if startsTag (c :: s) then
      let tag := Text.lower (String.ofList (s.takeWhile isTagChar))
      let (attributes, selfClosing, behind) := attributes (s.dropWhile isTagChar)
      (some (.opening tag attributes selfClosing), behind)
    else
      let (run, behind) := textRun s
      (some (.text (String.ofList (Entity.decode (c :: run)))), behind)

theorem next_length (c : Char) (s : List Char) : (next c s).2.length ≤ s.length := by
  unfold next
  split
  · have := through_length "-->".toList ‹_›; simp only [List.length_cons]; omega
  · have := through_length ['>'] ‹_›; simp only [List.length_cons]; omega
  · have := through_length ['>'] ‹_›; simp only [List.length_cons]; omega
  · split
    · exact Nat.le_trans (attributes_length _) (Text.length_dropWhile_le _ _)
    · exact textRun_length _

def scan : List Char → List Token
  | [] => []
  | c :: s =>
    have := next_length c s
    (next c s).1.toList ++ scan (next c s).2
termination_by s => s.length
decreasing_by simp only [List.length_cons]; omega

end Token
end ReactiveView
