import Mathlib.Data.List.TakeWhile
import ReactiveView.Text.Slice

/-! Where text can be cut. A text that is put together from two parts can be cut between them, and
the positions that are searched out in a text are such places. -/
namespace ReactiveView.Text

variable {s before rest : List Char} {c : Char}

/-- The length of a text in bytes. -/
def bytes (s : List Char) : Nat :=
  (String.ofList s).utf8ByteSize

@[simp]
theorem bytes_nil : bytes [] = 0 := rfl

@[simp]
theorem bytes_append (s rest : List Char) : bytes (s ++ rest) = bytes s + bytes rest := by
  rw [bytes, String.ofList_append, String.utf8ByteSize_append, bytes, bytes]

@[simp]
theorem bytes_cons (c : Char) (s : List Char) : bytes (c :: s) = c.utf8Size + bytes s := by
  rw [bytes, String.ofList_cons, String.utf8ByteSize_append, String.utf8ByteSize_singleton, bytes]

/-- Every character takes up room. -/
theorem bytes_eq_zero_iff : bytes s = 0 ↔ s = [] := by
  cases s with
  | nil => simp
  | cons c s =>
    have := c.utf8Size_pos
    simp only [bytes_cons, reduceCtorEq, iff_false]
    omega

theorem isValid_append (before rest : List Char) :
    (⟨bytes before⟩ : String.Pos.Raw).IsValid (String.ofList (before ++ rest)) :=
  String.Pos.Raw.isValid_iff_exists_append.mpr
    ⟨String.ofList before, String.ofList rest, String.ofList_append, rfl⟩

theorem splits_append (before rest : List Char) :
    (⟨⟨bytes before⟩, isValid_append before rest⟩ : (String.ofList (before ++ rest)).Pos).Splits
      (String.ofList before) (String.ofList rest) :=
  ⟨String.ofList_append, rfl⟩

theorem behind?_append (before rest : List Char) :
    behind? (String.ofList (before ++ rest)) ⟨bytes before⟩ = some (String.ofList rest) := by
  rw [behind?, dif_pos (isValid_append before rest)]
  exact congrArg some ((String.Pos.splits _).eq_right (splits_append before rest))

theorem upTo?_append (before rest : List Char) :
    upTo? (String.ofList (before ++ rest)) ⟨bytes before⟩ = some (String.ofList before) := by
  rw [upTo?, dif_pos (isValid_append before rest)]
  exact congrArg some ((String.Pos.splits _).eq_left (splits_append before rest))

theorem find?_positions (p : Char → Bool) (i : Nat) (s : List Char) :
    (match (positions i s).find? fun (_, c) => !p c with
      | some (j, _) => j
      | none => i + bytes s) = i + bytes (s.takeWhile p) := by
  induction s generalizing i with
  | nil => rfl
  | cons c s ih =>
    cases inside : p c with
    | true => simpa [positions, inside, Nat.add_assoc] using ih (i + c.utf8Size)
    | false => simp [positions, inside]

/-- A run ends behind its last character. -/
theorem runEnd_eq (p : Char → Bool) (s : List Char) :
    runEnd p (String.ofList s) = bytes (s.takeWhile p) := by
  have found := find?_positions p 0 s
  rw [Nat.zero_add, Nat.zero_add] at found
  rw [runEnd, String.toList_ofList]
  exact found

end ReactiveView.Text
