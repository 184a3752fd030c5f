import ReactiveView.Proofs.Markup.Scanning

/-! Written markup is parsed into the markup that was written, up to texts that were written next to
each other. -/
namespace ReactiveView.Markup

open Token (scan Opens)

mutual

/-- The tokens that markup is written as. -/
def tokens : Markup → List Token
  | .element tag attributes children =>
    .opening tag attributes false ::
      if isVoid tag then [] else tokensAll children ++ [.closing tag]
  | .text data => [.text data]
  | .comment data => [.comment data]

def tokensAll : List Markup → List Token
  | [] => []
  | m :: rest => tokens m ++ tokensAll rest

end

theorem startsTag_write {m : Markup} (sound : m.Sound) (inner : m.isText = false)
    (rest : List Char) :
    Token.startsTag (write m ++ rest) = true := by
  cases sound with
  | element isTag =>
    obtain ⟨c, t, shape, letter⟩ := isTag.letter
    simp [write, writeOpening, shape, Token.startsTag, letter]
  | text => cases inner
  | comment => simp [write, Token.startsTag]

/-- Behind a text that stands apart from other texts it is a tag that opens. -/
theorem opens_writeAll {m : Markup} {ms : List Markup} (apart : Apart (m :: ms))
    (sound : ∀ n ∈ ms, n.Sound) {rest : List Char} (opens : Opens rest) (text : m.isText = true) :
    Opens (writeAll ms ++ rest) := by
  cases ms with
  | nil => exact opens
  | cons n ms =>
    have inner : n.isText = false := by
      simpa [text] using (List.isChain_cons_cons.mp apart).1
    rw [writeAll, List.append_assoc]
    exact .inr (startsTag_write (sound n List.mem_cons_self) inner _)

mutual

theorem scan_write : ∀ m : Markup, m.Sound → m.Parted → ∀ rest, (m.isText = true → Opens rest) →
    scan (write m ++ rest) = tokens m ++ scan rest
  | .element tag attributes children, sound, parted, rest, _ => by
    cases sound with
    | element isTag names _ _ below =>
      cases parted with
      | element apart parted =>
        rw [write, tokens, List.append_assoc, Token.scan_opening isTag names]
        split
        · rfl
        · have opens : Opens (writeClosing tag ++ rest) := .inr rfl
          rw [List.append_assoc, scan_writeAll children below apart parted _ opens,
            Token.scan_closing isTag]
          simp
  | .text data, sound, _, rest, opens => by
    cases sound with
    | text some =>
      have some : data.toList ≠ [] := mt String.toList_eq_nil_iff.mp some
      rw [write, Token.scan_text (Entity.escapeText_ne_nil some) (Entity.not_mem_escapeText _)
        (opens rfl), Entity.decode_escapeText, String.ofList_toList]
      rfl
  | .comment data, sound, _, rest, _ => by
    cases sound with
    | comment absent =>
      rw [write, Token.scan_comment absent, String.ofList_toList]
      rfl

theorem scan_writeAll : ∀ ms : List Markup, (∀ m ∈ ms, m.Sound) → Apart ms → (∀ m ∈ ms, m.Parted) →
    ∀ rest, Opens rest → scan (writeAll ms ++ rest) = tokensAll ms ++ scan rest
  | [], _, _, _, _, _ => rfl
  | m :: ms, sound, apart, parted, rest, opens => by
    obtain ⟨first, later⟩ := List.forall_mem_cons.mp sound
    obtain ⟨parted, partedLater⟩ := List.forall_mem_cons.mp parted
    rw [writeAll, tokensAll, List.append_assoc, List.append_assoc,
      scan_write m first parted _ (opens_writeAll apart later opens),
      scan_writeAll ms later (List.isChain_cons.mp apart).2 partedLater rest opens]

end

namespace Building

theorem closeTag_top (top : OpenElement) (stack : List OpenElement) (content : List Markup) :
    closeTag top.tag ⟨top :: stack, content⟩ =
      ⟨stack, .element top.tag top.attributes content.reverse :: top.before⟩ := by
  simp [closeTag, closeThrough, closeInnermost]

mutual

/-- Its tokens add the markup to the content. -/
theorem foldl_tokens : ∀ m : Markup, m.Sound → ∀ b : Building, (tokens m).foldl step b = b.add m
  | .element tag attributes children, sound, b => by
    cases sound with
    | element _ _ distinct void below =>
      rw [tokens, List.foldl_cons]
      by_cases isVoid : isVoid tag = true
      · rw [if_pos isVoid, void isVoid, step, Bool.false_or, if_pos isVoid,
          Entries.merge_of_nodup distinct]
        rfl
      · rw [if_neg isVoid, step, Bool.false_or, if_neg isVoid, Entries.merge_of_nodup distinct,
          List.foldl_append, foldl_tokensAll children below, List.append_nil]
        show closeTag tag _ = _
        rw [closeTag_top ⟨tag, attributes, b.content⟩, List.reverse_reverse]
        rfl
  | .text _, _, _ => rfl
  | .comment _, _, _ => rfl

theorem foldl_tokensAll : ∀ ms : List Markup, (∀ m ∈ ms, m.Sound) → ∀ b : Building,
    (tokensAll ms).foldl step b = { b with content := ms.reverse ++ b.content }
  | [], _, _ => rfl
  | m :: ms, sound, b => by
    obtain ⟨first, later⟩ := List.forall_mem_cons.mp sound
    rw [tokensAll, List.foldl_append, foldl_tokens m first, foldl_tokensAll ms later]
    simp [add]

end
end Building

/-- Parsing undoes writing. -/
theorem parse_writeAll {ms : List Markup} (sound : ∀ m ∈ ms, m.Sound) (apart : Apart ms)
    (parted : ∀ m ∈ ms, m.Parted) : parse (String.ofList (writeAll ms)) = ms := by
  have scanned : scan (writeAll ms) = tokensAll ms := by
    have whole := scan_writeAll ms sound apart parted [] (.inl rfl)
    rwa [List.append_nil, Token.scan, List.append_nil] at whole
  rw [parse, String.toList_ofList, scanned, ofTokens, Building.foldl_tokensAll ms sound]
  simp [Building.finish, Building.closeAll]

/-- Texts that were written next to each other are parsed as one. -/
theorem parse_writeAll_eq_joinAll {ms : List Markup} (sound : ∀ m ∈ ms, m.Sound) :
    parse (String.ofList (writeAll ms)) = joinAll ms := by
  obtain ⟨apart, parted⟩ := parted_joinAll ms
  rw [← writeAll_joinAll ms, parse_writeAll (sound_joinAll ms sound) apart parted]

end ReactiveView.Markup
