import Mathlib.Data.List.Basic
import Mathlib.Data.List.TakeWhile
import ReactiveView.Text.Blank

/-! Words. The pieces of a text are the runs between separators that take all characters from one
separator, or from the beginning, to the next one or to the end; the words are those between blanks
that are not empty. -/
namespace ReactiveView.Text

variable {separates : Char → Bool} {c : Char} {piece word s before behind : List Char}

/-- The first piece ends where the first separator stands. -/
theorem pieces_eq (separates : Char → Bool) (s : List Char) :
    pieces separates s = s.takeWhile (!separates ·) ::
      match s.dropWhile (!separates ·) with
      | [] => []
      | _ :: rest => pieces separates rest := by
  induction s with
  | nil => rfl
  | cons c s ih =>
    cases parts : separates c with
    | true => simp [pieces, parts]
    | false =>
      simp only [pieces, parts, ih]
      simp [parts]

/-- Between two ends that are separated from it, there is nothing but this piece. -/
structure Bounds (separates : Char → Bool) (before behind : List Char) : Prop where
  before : ∀ c ∈ before.getLast?, separates c = true
  behind : ∀ c ∈ behind.head?, separates c = true

theorem Bounds.mem_pieces (bounds : Bounds separates before behind)
    (whole : ∀ c ∈ piece, separates c = false) :
    piece ∈ pieces separates (before ++ piece ++ behind) := by
  have front : piece ∈ pieces separates (before ++ piece) := by
    obtain rfl | ⟨init, c, rfl⟩ := List.eq_nil_or_concat' before
    · rw [List.nil_append, pieces_of_none whole]
      exact List.mem_singleton_self piece
    · have parts := bounds.before c (by simp)
      rw [List.append_assoc, List.singleton_append, pieces_append parts, pieces_of_none whole]
      exact List.mem_append_right _ (List.mem_singleton_self piece)
  cases behind with
  | nil => rwa [List.append_nil]
  | cons c rest =>
    rw [pieces_append (bounds.behind c rfl)]
    exact List.mem_append_left _ front

theorem exists_of_mem_pieces (member : piece ∈ pieces separates s) :
    (∀ c ∈ piece, separates c = false) ∧
      ∃ before behind, s = before ++ piece ++ behind ∧ Bounds separates before behind := by
  induction length : s.length using Nat.strong_induction_on generalizing s with
  | h n ih =>
    subst length
    rw [pieces_eq] at member
    have divided : s.takeWhile (!separates ·) ++ s.dropWhile (!separates ·) = s :=
      List.takeWhile_append_dropWhile
    have first := List.head?_dropWhile_not (!separates ·) s
    cases rest : s.dropWhile (!separates ·) with
    | nil =>
      rw [rest] at member divided
      obtain rfl := List.mem_singleton.mp member
      refine ⟨fun c inside => ?_, [], [], by simpa using divided.symm, nofun, nofun⟩
      simpa using List.mem_takeWhile_imp inside
    | cons c rest' =>
      rw [rest] at member divided first
      have parts : separates c = true := by simpa using first
      obtain rfl | further := List.mem_cons.mp member
      · refine ⟨fun c inside => ?_, [], c :: rest', divided.symm, nofun, fun d here => ?_⟩
        · simpa using List.mem_takeWhile_imp inside
        · exact (Option.some.inj here) ▸ parts
      · have shorter : rest'.length < s.length := by
          rw [← divided, List.length_append, List.length_cons]
          lia
        obtain ⟨whole, before, behind, same, bounds⟩ := ih _ shorter further rfl
        refine ⟨whole, s.takeWhile (!separates ·) ++ c :: before, behind, ?_, fun d last => ?_,
          bounds.behind⟩
        · rw [same] at divided
          simpa using divided.symm
        · -- Behind the separator stands what was before the piece, or nothing.
          rw [List.getLast?_append, List.getLast?_cons] at last
          obtain rfl := Option.some.inj last
          cases end_ : before.getLast? with
          | none => exact parts
          | some e => exact bounds.before e end_

theorem mem_pieces_iff : piece ∈ pieces separates s ↔ (∀ c ∈ piece, separates c = false) ∧
    ∃ before behind, s = before ++ piece ++ behind ∧ Bounds separates before behind :=
  ⟨exists_of_mem_pieces, fun ⟨whole, _, _, same, bounds⟩ => same ▸ bounds.mem_pieces whole⟩

/-- A word of a text: some characters that are not blank, between blanks or the ends of the text. -/
def IsWord (word s : List Char) : Prop :=
  word ≠ [] ∧ (∀ c ∈ word, isBlank c = false) ∧
    ∃ before behind, s = before ++ word ++ behind ∧ Bounds isBlank before behind

theorem mem_words_iff : word ∈ words s ↔ IsWord word s := by
  rw [words, List.mem_filter, mem_pieces_iff, decide_eq_true_eq]
  exact and_comm

end ReactiveView.Text
