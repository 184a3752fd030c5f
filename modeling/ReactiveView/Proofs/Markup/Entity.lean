import ReactiveView.Markup.Entity
import ReactiveView.Proofs.Text.Replacing

/-! Decoding entities one after the other is decoding them in one scan: no replacement makes or
breaks an occurrence for a later one. So escaped characters read back. What is escaped holds none of
the characters that would end a text or an attribute value. -/
namespace ReactiveView.Entity

open Text

/-- Reads the entities in one scan from the left, which never looks at what it has written. -/
def scan : List Char → List Char
  | '&' :: 'l' :: 't' :: ';' :: rest => '<' :: scan rest
  | '&' :: 'g' :: 't' :: ';' :: rest => '>' :: scan rest
  | '&' :: 'q' :: 'u' :: 'o' :: 't' :: ';' :: rest => '"' :: scan rest
  | '&' :: '#' :: '3' :: '9' :: ';' :: rest => '\'' :: scan rest
  | '&' :: 'a' :: 'm' :: 'p' :: ';' :: rest => '&' :: scan rest
  | c :: rest => c :: scan rest
  | [] => []

section Scan

theorem scan_entity {entity : List Char × Char} (member : entity ∈ known) (rest : List Char) :
    scan (entity.1 ++ rest) = entity.2 :: scan rest := by
  simp only [known, List.mem_cons, List.not_mem_nil, or_false] at member
  obtain rfl | rfl | rfl | rfl | rfl := member <;> rfl

theorem scan_cons {c : Char} {rest : List Char}
    (none : ∀ entity ∈ known, ¬ entity.1 <+: c :: rest) :
    scan (c :: rest) = c :: scan rest := by
  rw [scan]
  · rintro tail rfl rfl
    exact none ("&lt;".toList, '<') (by decide) ⟨tail, rfl⟩
  · rintro tail rfl rfl
    exact none ("&gt;".toList, '>') (by decide) ⟨tail, rfl⟩
  · rintro tail rfl rfl
    exact none ("&quot;".toList, '"') (by decide) ⟨tail, rfl⟩
  · rintro tail rfl rfl
    exact none ("&#39;".toList, '\'') (by decide) ⟨tail, rfl⟩
  · rintro tail rfl rfl
    exact none ("&amp;".toList, '&') (by decide) ⟨tail, rfl⟩

end Scan

/-- What keeps replacements out of each other's way: each entity has its only ampersand in front,
none begins with another one, and what is put in for one is not in a later one. -/
structure Apart (entities : List (List Char × Char)) : Prop where
  marked : ∀ entity ∈ entities, ∃ body, entity.1 = '&' :: body ∧ '&' ∉ body
  distinct : entities.Pairwise fun first later =>
    ¬ first.1 <+: later.1 ∧ ¬ later.1 <+: first.1 ∧ first.2 ∉ later.1

theorem apart_known : Apart known := by
  refine ⟨fun entity member => ?_, by decide⟩
  simp only [known, List.mem_cons, List.not_mem_nil, or_false] at member
  obtain rfl | rfl | rfl | rfl | rfl := member <;> exact ⟨_, rfl, by decide⟩

namespace Apart

variable {entity first : List Char × Char} {entities : List (List Char × Char)} {c : Char}
  {rest : List Char}

theorem tail (apart : Apart (entity :: entities)) : Apart entities :=
  ⟨fun entity member => apart.marked entity (List.mem_cons_of_mem _ member), apart.distinct.of_cons⟩

/-- A character at which no entity stands is passed each time. -/
theorem decodeEach_cons (apart : Apart entities)
    (none : ∀ entity ∈ entities, ¬ entity.1 <+: c :: rest) :
    decodeEach entities (c :: rest) = c :: decodeEach entities rest := by
  induction entities generalizing rest with
  | nil => rfl
  | cons first later ih =>
    obtain ⟨here, behind⟩ := List.forall_mem_cons.mp none
    obtain ⟨beyond, -⟩ := List.pairwise_cons.mp apart.distinct
    obtain ⟨body, same, -⟩ := apart.marked first List.mem_cons_self
    have step : replace first.1 [first.2] (c :: rest) = c :: replace first.1 [first.2] rest :=
      replace_cons here
    simp only [decodeEach, List.foldl_cons, step]
    refine ih apart.tail fun entity member occurs => behind entity member ?_
    -- An entity that stands there after the first replacement has nothing of it, so it stood there.
    obtain ⟨body', same', -⟩ := apart.marked entity (List.mem_cons_of_mem _ member)
    have spared := (beyond entity member).2.2
    rw [same'] at occurs spared ⊢
    obtain ⟨rfl, further⟩ := List.cons_prefix_cons.mp occurs
    refine List.cons_prefix_cons.mpr ⟨rfl, ?_⟩
    exact prefix_of_prefix_replace (same ▸ List.cons_ne_nil _ _)
      (fun inside => spared (List.mem_cons_of_mem _ inside)) further

/-- What has been put in is passed by the later replacements. -/
theorem decodeEach_past (apart : Apart (first :: entities)) (rest : List Char) :
    decodeEach entities (first.2 :: rest) = first.2 :: decodeEach entities rest := by
  obtain ⟨beyond, -⟩ := List.pairwise_cons.mp apart.distinct
  refine apart.tail.decodeEach_cons fun entity member occurs => (beyond entity member).2.2 ?_
  obtain ⟨body, same, -⟩ := apart.tail.marked entity member
  rw [same] at occurs ⊢
  rw [(List.cons_prefix_cons.mp occurs).1]
  exact List.mem_cons_self

/-- Each entity is decoded by its own replacement; the others leave it and what is put in for it. -/
theorem decodeEach_entity (apart : Apart entities) (member : entity ∈ entities) (rest : List Char) :
    decodeEach entities (entity.1 ++ rest) = entity.2 :: decodeEach entities rest := by
  induction entities generalizing rest with
  | nil => cases member
  | cons first later ih =>
    obtain ⟨beyond, -⟩ := List.pairwise_cons.mp apart.distinct
    obtain ⟨body, same, -⟩ := apart.marked first List.mem_cons_self
    simp only [decodeEach, List.foldl_cons]
    obtain rfl | further := List.mem_cons.mp member
    · rw [replace_append (same ▸ List.cons_ne_nil _ _)]
      exact apart.decodeEach_past _
    · obtain ⟨body', same', plain⟩ := apart.marked entity member
      have absent : ¬ first.1 <+: '&' :: (body' ++ rest) := fun occurs => by
        have both : entity.1 <+: '&' :: (body' ++ rest) :=
          same' ▸ List.prefix_append ('&' :: body') rest
        obtain ⟨notBefore, notBehind, -⟩ := beyond entity further
        exact (List.prefix_or_prefix_of_prefix occurs both).elim notBefore notBehind
      have step : replace first.1 [first.2] (entity.1 ++ rest) =
          entity.1 ++ replace first.1 [first.2] rest := by
        rw [same', List.cons_append, replace_cons absent, same, replace_past plain]
        rfl
      rw [step]
      exact ih apart.tail further _

end Apart

section Decode

theorem decodeEach_nil (entities : List (List Char × Char)) : decodeEach entities [] = [] := by
  induction entities with
  | nil => rfl
  | cons _ _ ih => exact ih

/-- One replacement after the other gives what one scan gives. -/
theorem decodeEach_known (s : List Char) : decodeEach known s = scan s := by
  induction length : s.length using Nat.strong_induction_on generalizing s with
  | h n ih =>
    subst length
    cases s with
    | nil => exact decodeEach_nil known
    | cons c rest =>
      by_cases stands : ∃ entity ∈ known, entity.1 <+: c :: rest
      · obtain ⟨entity, member, behind, same⟩ := stands
        have some : entity.1 ≠ [] := by
          obtain ⟨body, marked, -⟩ := apart_known.marked entity member
          exact marked ▸ List.cons_ne_nil _ _
        have shorter : behind.length < (c :: rest).length := by
          rw [← same, List.length_append]
          exact Nat.lt_add_of_pos_left (List.length_pos_iff.mpr some)
        rw [← same, apart_known.decodeEach_entity member, scan_entity member, ih _ shorter _ rfl]
      · have none : ∀ entity ∈ known, ¬ entity.1 <+: c :: rest := fun entity member occurs =>
          stands ⟨entity, member, occurs⟩
        rw [apart_known.decodeEach_cons none, scan_cons none, ih _ (Nat.lt_succ_self _) _ rfl]

theorem scan_of_plain {s : List Char} (plain : '&' ∉ s) : scan s = s := by
  induction s with
  | nil => rfl
  | cons c s ih =>
    obtain ⟨other, plain⟩ := not_or.mp (mt List.mem_cons.mpr plain)
    rw [scan_cons, ih plain]
    intro entity member occurs
    obtain ⟨body, same, -⟩ := apart_known.marked entity member
    rw [same] at occurs
    exact other (List.cons_prefix_cons.mp occurs).1

theorem decode_eq_scan (s : List Char) : decode s = scan s := by
  unfold decode
  split
  · exact decodeEach_known s
  · rename_i plain
    exact (scan_of_plain (by simpa using plain)).symm

theorem decode_cons {c : Char} (plain : c ≠ '&') (rest : List Char) :
    decode (c :: rest) = c :: decode rest := by
  rw [decode_eq_scan, decode_eq_scan, scan.eq_def]
  split <;> simp_all

theorem decode_ne_nil {s : List Char} (some : s ≠ []) : decode s ≠ [] := by
  rw [decode_eq_scan, scan.eq_def]
  split <;> simp_all

end Decode

section Escape

def escapeTextChar (c : Char) : List Char :=
  if c = '&' then "&amp;".toList
  else if c = '<' then "&lt;".toList
  else if c = '>' then "&gt;".toList
  else [c]

def escapeAttributeChar (c : Char) : List Char :=
  if c = '&' then "&amp;".toList
  else if c = '"' then "&quot;".toList
  else [c]

/-- Each character is escaped by itself, as what is put in for one is left by the later
replacements. -/
theorem escapeText_eq (s : List Char) : escapeText s = s.flatMap escapeTextChar := by
  simp only [escapeText, replace_singleton, List.flatMap_assoc]
  congr 1
  funext c
  unfold escapeTextChar
  by_cases ampersand : c = '&'
  · rw [if_pos ampersand, if_pos ampersand]
    rfl
  · rw [if_neg ampersand, if_neg ampersand, List.flatMap_singleton]
    by_cases less : c = '<'
    · rw [if_pos less, if_pos less]
      rfl
    · rw [if_neg less, if_neg less, List.flatMap_singleton]

theorem escapeAttribute_eq (s : List Char) : escapeAttribute s = s.flatMap escapeAttributeChar := by
  simp only [escapeAttribute, replace_singleton, List.flatMap_assoc]
  congr 1
  funext c
  unfold escapeAttributeChar
  by_cases ampersand : c = '&'
  · rw [if_pos ampersand, if_pos ampersand]
    rfl
  · rw [if_neg ampersand, if_neg ampersand, List.flatMap_singleton]

end Escape

theorem decode_escapeTextChar (c : Char) (rest : List Char) :
    decode (escapeTextChar c ++ rest) = c :: decode rest := by
  unfold escapeTextChar
  by_cases ampersand : c = '&'
  · subst ampersand
    simp only [decode_eq_scan]
    rfl
  · rw [if_neg ampersand]
    split
    · subst c
      simp only [decode_eq_scan]
      rfl
    · split
      · subst c
        simp only [decode_eq_scan]
        rfl
      · exact decode_cons ampersand rest

theorem decode_escapeAttributeChar (c : Char) (rest : List Char) :
    decode (escapeAttributeChar c ++ rest) = c :: decode rest := by
  unfold escapeAttributeChar
  by_cases ampersand : c = '&'
  · subst ampersand
    simp only [decode_eq_scan]
    rfl
  · rw [if_neg ampersand]
    split
    · subst c
      simp only [decode_eq_scan]
      rfl
    · exact decode_cons ampersand rest

theorem decode_flatMap {escape : Char → List Char}
    (each : ∀ c rest, decode (escape c ++ rest) = c :: decode rest) (s : List Char) :
    decode (s.flatMap escape) = s := by
  induction s with
  | nil => rfl
  | cons c s ih => rw [List.flatMap_cons, each, ih]

theorem decode_escapeText (s : List Char) : decode (escapeText s) = s :=
  escapeText_eq s ▸ decode_flatMap decode_escapeTextChar s

theorem decode_escapeAttribute (s : List Char) : decode (escapeAttribute s) = s :=
  escapeAttribute_eq s ▸ decode_flatMap decode_escapeAttributeChar s

/-- Decoding is one scan from the left that never reads what it has written, so it gives back any
text that was escaped, whatever entities the text itself has. -/
theorem decoded_in_one_scan (s : List Char) :
    decode s = scan s ∧ decode (escapeText s) = s ∧ decode (escapeAttribute s) = s :=
  ⟨decode_eq_scan s, decode_escapeText s, decode_escapeAttribute s⟩

example : decode "&amp;lt; &lt;&amp;".toList = "&lt; <&".toList := by decide

theorem escapeText_append (s t : List Char) :
    escapeText (s ++ t) = escapeText s ++ escapeText t := by
  simp only [escapeText_eq, List.flatMap_append]

theorem escapeText_ne_nil {s : List Char} (some : s ≠ []) : escapeText s ≠ [] := by
  intro none
  have back := decode_escapeText s
  rw [none] at back
  exact some back.symm

/-- An escaped text holds no bracket. -/
theorem not_mem_escapeText (s : List Char) : '<' ∉ escapeText s := by
  intro member
  rw [escapeText_eq] at member
  obtain ⟨c, -, member⟩ := List.mem_flatMap.mp member
  unfold escapeTextChar at member
  split at member
  · simp at member
  · split at member
    · simp at member
    · rename_i other
      split at member
      · simp at member
      · exact other (List.mem_singleton.mp member).symm

/-- An escaped attribute value holds no quotation mark. -/
theorem not_mem_escapeAttribute (s : List Char) : '"' ∉ escapeAttribute s := by
  intro member
  rw [escapeAttribute_eq] at member
  obtain ⟨c, -, member⟩ := List.mem_flatMap.mp member
  unfold escapeAttributeChar at member
  split at member
  · simp at member
  · split at member
    · simp at member
    · rename_i other
      exact other (List.mem_singleton.mp member).symm

end ReactiveView.Entity
