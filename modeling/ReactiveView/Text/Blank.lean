/-! White space, and the trimming and splitting of text that rest on it. Blank means the Unicode
property White_Space, so a no-break space is blank and a zero-width space is not. -/
namespace ReactiveView.Text

/-- The 25 code points of the property White_Space. -/
def isBlank (c : Char) : Bool :=
  let n := c.toNat
  (0x09 ≤ n && n ≤ 0x0D) || n == 0x20 || n == 0x85 || n == 0xA0 || n == 0x1680 ||
    (0x2000 ≤ n && n ≤ 0x200A) || n == 0x2028 || n == 0x2029 || n == 0x202F || n == 0x205F ||
    n == 0x3000

def trimStart (s : List Char) : List Char :=
  s.dropWhile isBlank

def trimEnd (s : List Char) : List Char :=
  (s.reverse.dropWhile isBlank).reverse

def trim (s : List Char) : List Char :=
  trimEnd (trimStart s)

/-- The text between separators: one piece more than there are separators, empty pieces kept. -/
def pieces (separates : Char → Bool) : List Char → List (List Char)
  | [] => [[]]
  | c :: rest =>
    match separates c, pieces separates rest with
    | true, later => [] :: later
    | false, [] => [[c]]
    | false, piece :: later => (c :: piece) :: later

/-- The maximal runs of characters that are not blank. -/
def words (s : List Char) : List (List Char) :=
  (pieces isBlank s).filter (· ≠ [])

/-- Folds the letters A to Z only. -/
def lower (s : String) : String :=
  s.map Char.toLower

def trimmed (s : String) : String :=
  String.ofList (trim s.toList)

theorem length_dropWhile_le (p : Char → Bool) (s : List Char) :
    (s.dropWhile p).length ≤ s.length :=
  (List.dropWhile_sublist p).length_le

theorem pieces_ne_nil (separates : Char → Bool) (s : List Char) : pieces separates s ≠ [] := by
  cases s with
  | nil => simp [pieces]
  | cons c rest => simp only [pieces]; split <;> simp

theorem pieces_of_none {separates : Char → Bool} {s : List Char}
    (none : ∀ c ∈ s, separates c = false) : pieces separates s = [s] := by
  induction s with
  | nil => rfl
  | cons c rest ih =>
    rw [pieces, none c (List.mem_cons_self ..), ih fun x member =>
      none x (List.mem_cons_of_mem _ member)]

/-- A separator parts the pieces before it from those behind it. -/
theorem pieces_append {separates : Char → Bool} {c : Char} (parts : separates c = true)
    (s t : List Char) :
    pieces separates (s ++ c :: t) = pieces separates s ++ pieces separates t := by
  induction s with
  | nil => simp [pieces, parts]
  | cons x rest ih =>
    simp only [List.cons_append, pieces, ih]
    cases separates x with
    | true => rfl
    | false =>
      cases found : pieces separates rest with
      | nil => exact (pieces_ne_nil separates rest found).elim
      | cons piece later => rfl

end ReactiveView.Text
