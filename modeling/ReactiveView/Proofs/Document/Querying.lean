import ReactiveView.Document.Selector
import ReactiveView.Proofs.Document.Listing
import ReactiveView.Proofs.Document.Occupancy
import ReactiveView.Proofs.Text.Words

/-! Queries. A query goes through the nodes below a node in document order, and gives the first
element that fits its selector. -/
namespace ReactiveView

namespace Selector

variable {ℓ : Type} {s : Selector} {name : List Char} {c : Char}

/-- Some letters and digits without accents, hyphens and underscores. -/
def IsName (name : List Char) : Prop :=
  name ≠ [] ∧ ∀ c ∈ name, 'A' ≤ c ∧ c ≤ 'Z' ∨ 'a' ≤ c ∧ c ≤ 'z' ∨ '0' ≤ c ∧ c ≤ '9' ∨
    c = '-' ∨ c = '_'

/-- How selectors are written. -/
inductive Written : List Char → Selector → Prop
  | id {name : List Char} : IsName name → Written ('#' :: name) (.id (String.ofList name))
  | cls {name : List Char} : IsName name → Written ('.' :: name) (.cls (String.ofList name))
  | tag {name : List Char} : IsName name → Written name (.tag (Text.lower (String.ofList name)))

/-- What a selector asks of an element. -/
def Fits (n : Node ℓ) : Selector → Prop
  | .id name => n.kind = .element ∧ n.attribute? "id" = some name
  | .cls name => n.kind = .element ∧ ∃ classes, n.attribute? "class" = some classes ∧
      Text.IsWord name.toList classes.toList
  | .tag name => n.kind = .element ∧ n.tag = name

theorem isNameChar_iff (c : Char) : isNameChar c = true ↔
    'A' ≤ c ∧ c ≤ 'Z' ∨ 'a' ≤ c ∧ c ≤ 'z' ∨ '0' ≤ c ∧ c ≤ '9' ∨ c = '-' ∨ c = '_' := by
  have upper : c.isUpper = true ↔ 'A' ≤ c ∧ c ≤ 'Z' := decide_eq_true_iff
  have lower : c.isLower = true ↔ 'a' ≤ c ∧ c ≤ 'z' :=
    Bool.and_eq_true_iff.trans (and_congr decide_eq_true_iff decide_eq_true_iff)
  have digit : c.isDigit = true ↔ '0' ≤ c ∧ c ≤ '9' :=
    Bool.and_eq_true_iff.trans (and_congr decide_eq_true_iff decide_eq_true_iff)
  have letter : c.isAlpha = true ↔ c.isUpper = true ∨ c.isLower = true := Bool.or_eq_true_iff
  have either : c.isAlphanum = true ↔ c.isAlpha = true ∨ c.isDigit = true := Bool.or_eq_true_iff
  simp only [isNameChar, Bool.or_eq_true, beq_iff_eq, either, letter, upper, lower, digit, or_assoc]

theorem name?_eq_some_iff {text : String} :
    name? name = some text ↔ IsName name ∧ text = String.ofList name := by
  unfold name? IsName
  split
  · rename_i valid
    simp only [Bool.and_eq_true, decide_eq_true_eq, List.all_eq_true, isNameChar_iff] at valid
    simp only [Option.some.injEq, valid, ne_eq, not_false_eq_true, true_and, eq_comm]
    exact ⟨fun same => ⟨valid.2, same⟩, fun both => both.2⟩
  · rename_i invalid
    simp only [Bool.and_eq_true, decide_eq_true_eq, List.all_eq_true, isNameChar_iff] at invalid
    exact ⟨nofun, fun both => (invalid both.1).elim⟩

theorem map_name?_eq_some_iff (make : String → Selector) :
    (name? name).map make = some s ↔ IsName name ∧ s = make (String.ofList name) := by
  rw [Option.map_eq_some_iff]
  constructor
  · rintro ⟨_, named, rfl⟩
    obtain ⟨isName, rfl⟩ := name?_eq_some_iff.mp named
    exact ⟨isName, rfl⟩
  · rintro ⟨isName, rfl⟩
    exact ⟨_, name?_eq_some_iff.mpr ⟨isName, rfl⟩, rfl⟩

theorem IsName.head_ne (isName : IsName (c :: name)) : c ≠ '#' ∧ c ≠ '.' := by
  have valid : isNameChar c = true := (isNameChar_iff c).mpr (isName.2 c List.mem_cons_self)
  constructor
  · rintro rfl
    exact absurd valid (by decide)
  · rintro rfl
    exact absurd valid (by decide)

theorem parse?_eq_some_iff {text : String} :
    parse? text = some s ↔ Written (Text.trim text.toList) s := by
  unfold parse?
  generalize Text.trim text.toList = trimmed
  split
  · rw [map_name?_eq_some_iff]
    constructor
    · rintro ⟨isName, rfl⟩
      exact .id isName
    · intro written
      cases written with
      | id isName => exact ⟨isName, rfl⟩
      | tag isName => exact (isName.head_ne.1 rfl).elim
  · rw [map_name?_eq_some_iff]
    constructor
    · rintro ⟨isName, rfl⟩
      exact .cls isName
    · intro written
      cases written with
      | cls isName => exact ⟨isName, rfl⟩
      | tag isName => exact (isName.head_ne.2 rfl).elim
  · rename_i noId noClass
    rw [map_name?_eq_some_iff fun name => .tag (Text.lower name)]
    constructor
    · rintro ⟨isName, rfl⟩
      exact .tag isName
    · intro written
      cases written with
      | id isName => exact (noId _ rfl).elim
      | cls isName => exact (noClass _ rfl).elim
      | tag isName => exact ⟨isName, rfl⟩

theorem accepts_iff {n : Node ℓ} : s.accepts n = true ↔ s.Fits n := by
  cases s with
  | id name => simp [accepts, Fits]
  | cls name =>
    simp only [accepts, Fits, Bool.and_eq_true, decide_eq_true_eq, List.contains_iff_mem,
      Text.mem_words_iff]
    refine and_congr_right fun _ => ?_
    cases n.attribute? "class" with
    | some classes => simp
    | none =>
      -- Without the attribute there are no words.
      simp only [Option.getD_none, reduceCtorEq, false_and, exists_false, iff_false]
      rintro ⟨some, -, before, behind, same, -⟩
      simp only [String.toList_empty, List.nil_eq, List.append_eq_nil_iff] at same
      exact some same.1.2
  | tag name => simp [accepts, Fits]

mutual

/-- Searching a branch is searching its listing. -/
theorem find?_eq (s : Selector) : ∀ b : Branch ℓ,
    s.find? b = (b.preorder.find? fun entry => s.accepts entry.2).map Prod.fst
  | .mk here node children => by
    rw [find?, Branch.preorder, List.find?_cons]
    cases s.accepts node with
    | true => rfl
    | false => exact findBelow?_eq s children

theorem findBelow?_eq (s : Selector) : ∀ bs : List (Branch ℓ),
    s.findBelow? bs = ((Branch.preorderAll bs).find? fun entry => s.accepts entry.2).map Prod.fst
  | [] => rfl
  | b :: rest => by
    rw [findBelow?, Branch.preorderAll, List.find?_append, find?_eq s b, findBelow?_eq s rest]
    cases b.preorder.find? fun entry => s.accepts entry.2 <;> rfl

end
end Selector

namespace Document

variable {ℓ : Type} {doc : Document ℓ} {n m : NodeId}

/-- All nodes below a node, in document order. -/
def below (doc : Document ℓ) (n : NodeId) : List NodeId :=
  (doc.node n).children.flatMap doc.listing

/-- Nothing is cut off from a listing. -/
theorem listing_eq (formed : doc.WellFormed) (inside : n < doc.size) :
    doc.listing n = n :: doc.below n := by
  have more : doc.listingTo (doc.size + 1) n = doc.listingTo doc.size n := by
    refine formed.descend
      (motive := fun levels n => doc.listingTo (levels + 1) n = doc.listingTo levels n)
      (fun levels n lower => ?_) inside
    rw [listingTo_succ, listingTo_succ doc levels n]
    exact congrArg (n :: ·) (List.flatMap_congr lower)
  rw [listing, ← more, listingTo_succ]
  rfl

/-- Document order: each child comes before the nodes below it, and these before the next child. -/
theorem below_eq (formed : doc.WellFormed) :
    doc.below n = (doc.node n).children.flatMap fun c => c :: doc.below c :=
  List.flatMap_congr fun _ member =>
    listing_eq formed (inside_of_parent ((formed.links _ _).mp member))

theorem nodup_below (formed : doc.WellFormed) (inside : n < doc.size) :
    n ∉ doc.below n ∧ (doc.below n).Nodup := by
  have once := nodup_listing formed inside
  rw [listing_eq formed inside] at once
  exact List.nodup_cons.mp once

theorem mem_below (formed : doc.WellFormed) (inside : n < doc.size) :
    m ∈ doc.below n ↔ Above doc n m := by
  have listed := mem_listing formed inside (n := m)
  rw [listing_eq formed inside, List.mem_cons] at listed
  constructor
  · intro member
    obtain rfl | above := listed.mp (.inr member)
    · exact absurd member (nodup_below formed inside).1
    · exact above
  · intro above
    obtain rfl | member := listed.mpr (.inr above)
    · exact (formed.not_above_self _ above).elim
    · exact member

theorem preorder_branchTo (doc : Document ℓ) (levels : Nat) (n : NodeId) :
    (doc.branchTo levels n).preorder = (doc.listingTo levels n).map fun m => (m, doc.node m) := by
  induction levels generalizing n with
  | zero => rfl
  | succ levels ih =>
    rw [listingTo_succ, branchTo, Branch.preorder, Branch.preorderAll_eq, List.flatMap_map,
      List.map_cons, List.map_flatMap]
    simp only [ih]

/-- A query goes through the nodes below one after the other. -/
theorem query?_eq (formed : doc.WellFormed) (inside : n < doc.size) (selector : String) :
    doc.query? n selector = (Selector.parse? selector).bind fun s =>
      (doc.below n).find? fun m => s.accepts (doc.node m) := by
  have listed := preorder_branchTo doc doc.size n
  rw [branchTo_eq, Branch.preorder, ← listing, listing_eq formed inside, List.map_cons] at listed
  have entries :
      Branch.preorderAll (doc.branch n).children = (doc.below n).map fun m => (m, doc.node m) :=
    (List.cons.inj listed).2
  unfold query?
  congr 1
  funext s
  rw [Selector.findBelow?_eq, entries, List.find?_map, Option.map_map]
  exact Option.map_id'

open State in
/-- The nodes below a node are listed in document order, each once. A query from the node finds
nothing unless its text is written as a selector once it is trimmed. Then it finds the first node of
the list that fits the selector, so never the node itself, and it finds nothing exactly if no node
below fits. -/
theorem query_first_match {s : State ℓ} (reachable : Reachable s) (inside : n < s.doc.size)
    (selector : String) :
    ((∀ m, m ∈ s.doc.below n ↔ Above s.doc n m) ∧ (s.doc.below n).Nodup ∧ n ∉ s.doc.below n ∧
      s.doc.below n = (s.doc.node n).children.flatMap fun c => c :: s.doc.below c) ∧
    ((∀ sel, ¬ Selector.Written (Text.trim selector.toList) sel) → s.doc.query? n selector = none) ∧
    ∀ sel, Selector.Written (Text.trim selector.toList) sel →
      (∀ m, s.doc.query? n selector = some m ↔ ∃ before behind,
        s.doc.below n = before ++ m :: behind ∧ sel.Fits (s.doc.node m) ∧
          ∀ b ∈ before, ¬ sel.Fits (s.doc.node b)) ∧
      (s.doc.query? n selector = none ↔ ∀ m, Above s.doc n m → ¬ sel.Fits (s.doc.node m)) := by
  have formed := (good_of_reachable reachable).formed
  have query := query?_eq formed inside selector
  obtain ⟨apart, once⟩ := nodup_below formed inside
  refine ⟨⟨fun m => mem_below formed inside, once, apart, below_eq formed⟩, fun unwritten => ?_,
    fun sel written => ⟨fun m => ?_, ?_⟩⟩
  · have unparsed : Selector.parse? selector = none :=
      Option.eq_none_iff_forall_ne_some.mpr fun sel parsed =>
        unwritten sel (Selector.parse?_eq_some_iff.mp parsed)
    rw [query, unparsed]
    rfl
  · rw [query, Selector.parse?_eq_some_iff.mpr written, Option.bind_some,
      List.find?_eq_some_iff_append]
    simp only [Bool.not_eq_true', Bool.eq_false_iff, ne_eq, Selector.accepts_iff]
    constructor
    · rintro ⟨fits, before, behind, same, first⟩
      exact ⟨before, behind, same, fits, first⟩
    · rintro ⟨before, behind, same, fits, first⟩
      exact ⟨fits, before, behind, same, first⟩
  · rw [query, Selector.parse?_eq_some_iff.mpr written, Option.bind_some, List.find?_eq_none]
    simp only [Selector.accepts_iff, mem_below formed inside]

/-- A list in which two of three elements have a class, the last one of them two words of it. -/
def catalogue : State Empty :=
  State.start.run (.parse "<ul><li class=old></li><li class='new old'></li><b></b></ul>")

/-- The first of two that fit is found, and nothing below a node without children. The texts that
are no selectors find nothing. -/
theorem catalogue_queried :
    catalogue.doc.below 0 = [1, 2, 3, 4] ∧ Selector.Written ".old".toList (.cls "old") ∧
    catalogue.doc.query? 0 " .old " = some 2 ∧ catalogue.doc.query? 2 ".old" = none ∧
    (∀ m, Document.Above catalogue.doc 2 m → ¬ (Selector.cls "old").Fits (catalogue.doc.node m)) ∧
    catalogue.doc.query? 0 "li.old" = none := by
  have reachable : Reachable catalogue := .run .start trivial
  have named : Selector.IsName ['o', 'l', 'd'] := by
    refine ⟨List.cons_ne_nil _ _, fun c member => (Selector.isNameChar_iff c).mp ?_⟩
    exact List.all_eq_true.mp (by decide) c member
  have written : Selector.Written ".old".toList (.cls "old") := .cls named
  have order : catalogue.doc.below 0 = [1, 2, 3, 4] := by decide +kernel
  obtain ⟨-, -, found⟩ := query_first_match reachable (n := 0) (by decide +kernel) " .old "
  obtain ⟨-, -, missed⟩ := query_first_match reachable (n := 2) (by decide +kernel) ".old"
  obtain ⟨-, unwritten, -⟩ := query_first_match reachable (n := 0) (by decide +kernel) "li.old"
  have childless : catalogue.doc.query? 2 ".old" = none := by decide +kernel
  refine ⟨order, written, (found _ (by exact written)).1 2 |>.mpr ?_, childless,
    (missed _ (by exact written)).2.mp childless, unwritten fun sel wrong => ?_⟩
  · refine ⟨[1], [3, 4], order, Selector.accepts_iff.mp (by decide +kernel), fun b single => ?_⟩
    obtain rfl := List.mem_singleton.mp single
    exact fun fits => absurd (Selector.accepts_iff.mpr fits) (by decide +kernel)
  · have unparsed : Selector.parse? "li.old" = none := by decide +kernel
    rw [Selector.parse?_eq_some_iff.mpr wrong] at unparsed
    cases unparsed

end Document
end ReactiveView
