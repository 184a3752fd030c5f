/-! Replacing a pattern in text. Occurrences are looked for from the left, and behind an occurrence
the search goes on with the text that follows it, so what is put in is never looked at. -/
namespace ReactiveView.Text

/-- Replaces the pattern behind so many characters, which belong to an occurrence before. -/
def replaceBehind (pattern new : List Char) : Nat → List Char → List Char
  | _, [] => []
  | 0, c :: rest =>
    if pattern.isPrefixOf (c :: rest) then
      new ++ replaceBehind pattern new (pattern.length - 1) rest
    else c :: replaceBehind pattern new 0 rest
  | taken + 1, _ :: rest => replaceBehind pattern new taken rest

/-- Replaces every occurrence of a pattern that is not empty. -/
def replace (pattern new s : List Char) : List Char :=
  replaceBehind pattern new 0 s

variable {pattern new s : List Char} {c : Char}

theorem replace_cons (absent : ¬ pattern <+: c :: s) :
    replace pattern new (c :: s) = c :: replace pattern new s := by
  rw [replace, replaceBehind, if_neg (mt List.isPrefixOf_iff_prefix.mp absent)]
  rfl

theorem replaceBehind_append (pattern new s rest : List Char) :
    replaceBehind pattern new s.length (s ++ rest) = replace pattern new rest := by
  induction s with
  | nil => rfl
  | cons c s ih => rw [List.cons_append, List.length_cons, replaceBehind, ih]

theorem replace_append (some : pattern ≠ []) (new rest : List Char) :
    replace pattern new (pattern ++ rest) = new ++ replace pattern new rest := by
  obtain ⟨c, body, rfl⟩ := List.exists_cons_of_ne_nil some
  have here : (c :: body).isPrefixOf (c :: (body ++ rest)) = true :=
    List.isPrefixOf_iff_prefix.mpr (List.prefix_append (c :: body) rest)
  rw [replace, List.cons_append, replaceBehind, if_pos here, List.length_cons, Nat.add_sub_cancel,
    replaceBehind_append]

end ReactiveView.Text
