import Mathlib.Data.List.Basic
import Mathlib.Data.List.TakeWhile
import ReactiveView.Text.Blank

/-! Runs of characters of a kind. A run ends where the next character is another one. Trimming takes
the runs of blanks off at either end, so what is left neither begins nor ends with a blank. -/
namespace ReactiveView.Text

variable {p : Char → Bool} {s rest before behind : List Char} {c : Char}

/-- A run ends where the next character is another one. -/
theorem run_append (inside : ∀ c ∈ s, p c = true) (ends : ∀ c ∈ rest.head?, p c = false) :
    (s ++ rest).takeWhile p = s ∧ (s ++ rest).dropWhile p = rest := by
  rw [List.takeWhile_append_of_pos inside, List.dropWhile_append_of_pos inside]
  cases rest with
  | nil => simp
  | cons c rest => simp [ends c rfl]

theorem trimStart_of_not_isBlank (visible : isBlank c = false) (s : List Char) :
    trimStart (c :: s) = c :: s :=
  List.dropWhile_cons_of_neg (by simp [visible])

theorem trimStart_append (blank : ∀ c ∈ before, isBlank c = true)
    (begins : ∀ c ∈ s.head?, isBlank c = false) : trimStart (before ++ s) = s :=
  (run_append blank begins).2

theorem trimEnd_append (blank : ∀ c ∈ behind, isBlank c = true)
    (ends : ∀ c ∈ s.getLast?, isBlank c = false) : trimEnd (s ++ behind) = s := by
  have turned : trimStart (behind.reverse ++ s.reverse) = s.reverse :=
    trimStart_append (by simpa using blank) (by simpa using ends)
  rw [trimStart] at turned
  rw [trimEnd, List.reverse_append, turned, List.reverse_reverse]

theorem trim_append (filled : s ≠ []) (begins : ∀ c ∈ s.head?, isBlank c = false)
    (ends : ∀ c ∈ s.getLast?, isBlank c = false) (blank : ∀ c ∈ before, isBlank c = true)
    (blank' : ∀ c ∈ behind, isBlank c = true) : trim (before ++ s ++ behind) = s := by
  have begins' : ∀ c ∈ (s ++ behind).head?, isBlank c = false := by
    rw [List.head?_append_of_ne_nil _ filled]
    exact begins
  rw [trim, List.append_assoc, trimStart_append blank begins', trimEnd_append blank' ends]

theorem trim_of_not_isBlank (visible : ∀ c ∈ s, isBlank c = false) : trim s = s := by
  have front : trimStart ([] ++ s) = s :=
    trimStart_append (by simp) fun c first => visible c (List.mem_of_mem_head? first)
  have back : trimEnd (s ++ []) = s :=
    trimEnd_append (by simp) fun c last => visible c (List.mem_of_mem_getLast? last)
  rw [List.nil_append] at front
  rw [List.append_nil] at back
  rw [trim, front, back]

theorem head?_trimStart (s : List Char) : ∀ c ∈ (trimStart s).head?, isBlank c = false := by
  intro c first
  have unblank := List.head?_dropWhile_not isBlank s
  rw [trimStart] at first
  rw [Option.mem_def.mp first] at unblank
  exact unblank

theorem getLast?_trimEnd (s : List Char) : ∀ c ∈ (trimEnd s).getLast?, isBlank c = false := by
  rw [trimEnd, List.getLast?_reverse]
  exact head?_trimStart s.reverse

theorem trimStart_split (s : List Char) :
    ∃ before, (∀ c ∈ before, isBlank c = true) ∧ s = before ++ trimStart s :=
  ⟨s.takeWhile isBlank, fun _ member => List.mem_takeWhile_imp member,
    List.takeWhile_append_dropWhile.symm⟩

theorem trimEnd_split (s : List Char) :
    ∃ behind, (∀ c ∈ behind, isBlank c = true) ∧ s = trimEnd s ++ behind := by
  obtain ⟨blanks, blank, same⟩ := trimStart_split s.reverse
  refine ⟨blanks.reverse, by simpa using blank, ?_⟩
  rw [trimEnd, ← List.reverse_append, ← trimStart, ← same, List.reverse_reverse]

theorem trim_split (s : List Char) :
    ∃ before behind, (∀ c ∈ before, isBlank c = true) ∧ (∀ c ∈ behind, isBlank c = true) ∧
      s = before ++ trim s ++ behind := by
  obtain ⟨before, blank, same⟩ := trimStart_split s
  obtain ⟨behind, blank', same'⟩ := trimEnd_split (trimStart s)
  refine ⟨before, behind, blank, blank', ?_⟩
  rw [trim, List.append_assoc, ← same', ← same]

theorem head?_trim (filled : trim s ≠ []) : ∀ c ∈ (trim s).head?, isBlank c = false := by
  intro c first
  obtain ⟨behind, -, same⟩ := trimEnd_split (trimStart s)
  refine head?_trimStart s c ?_
  rw [same, ← trim, List.head?_append_of_ne_nil _ filled]
  exact first

end ReactiveView.Text
