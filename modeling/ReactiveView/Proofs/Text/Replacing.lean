import Mathlib.Data.List.Basic
import Mathlib.Data.List.Infix
import ReactiveView.Text.Replace

/-! What replacing leaves. Text in which no occurrence begins is passed, and what stands in the
result without the characters that are put in stood there before. -/
namespace ReactiveView.Text

variable {pattern new s rest : List Char} {c mark : Char}

/-- One character is replaced where it stands, each time by itself. -/
theorem replace_singleton (mark : Char) (new s : List Char) :
    replace [mark] new s = s.flatMap fun c => if c = mark then new else [c] := by
  induction s with
  | nil => rfl
  | cons c s ih =>
    rw [List.flatMap_cons]
    by_cases here : c = mark
    · subst here
      rw [if_pos rfl, ← ih]
      exact replace_append (List.cons_ne_nil c []) new s
    · rw [if_neg here, ← ih]
      apply replace_cons
      rintro ⟨_, same⟩
      exact here (List.cons.inj same).1.symm

/-- Where the first character of the pattern does not stand, nothing is replaced. -/
theorem replace_past (plain : mark ∉ s) (body new rest : List Char) :
    replace (mark :: body) new (s ++ rest) = s ++ replace (mark :: body) new rest := by
  induction s with
  | nil => rfl
  | cons c s ih =>
    obtain ⟨other, plain⟩ := not_or.mp (mt List.mem_cons.mpr plain)
    rw [List.cons_append, replace_cons, ih plain, List.cons_append]
    rintro ⟨_, same⟩
    exact other (List.cons.inj same).1

/-- What the result begins with was there before if it has nothing of what is put in. -/
theorem prefix_of_prefix_replace (some : pattern ≠ []) (kept : c ∉ s)
    (begins : s <+: replace pattern [c] rest) : s <+: rest := by
  induction s generalizing rest with
  | nil => exact List.nil_prefix
  | cons x s ih =>
    obtain ⟨other, kept⟩ := not_or.mp (mt List.mem_cons.mpr kept)
    cases rest with
    | nil => exact begins
    | cons y rest =>
      by_cases occurs : pattern <+: y :: rest
      · obtain ⟨behind, same⟩ := occurs
        rw [← same, replace_append some] at begins
        exact absurd (List.cons_prefix_cons.mp begins).1.symm other
      · rw [replace_cons occurs] at begins
        obtain ⟨rfl, further⟩ := List.cons_prefix_cons.mp begins
        exact List.cons_prefix_cons.mpr ⟨rfl, ih kept further⟩

end ReactiveView.Text
