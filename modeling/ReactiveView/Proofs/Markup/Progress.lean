import ReactiveView.Markup.Parse
import ReactiveView.Proofs.Markup.Cursor
import ReactiveView.Proofs.Markup.Parsed

/-! Reading markup gets on. Wherever a turn of one of the two loops begins, the cursor stands
where a character begins or at the end, and the turn reads at least one character if there is
one. So the tokens are no more than the characters, and neither are the nodes of the tree that is
built from them. -/
namespace ReactiveView

namespace Cursor

open Text Token

variable {c : Cursor} {text s rest : List Char}

/-- The cursor stands in the markup, where a character begins or at the end. -/
structure OnBoundary (markup : String) (c : Cursor) : Prop where
  source : c.source = markup
  valid : c.pos.IsValid markup

/-- The cursor moves over at least one character. -/
def Consumes (c c' : Cursor) : Prop :=
  ∃ ahead rest : String, ahead ≠ "" ∧ c.rest? = some (ahead ++ rest) ∧
    c' = c.advance ahead.utf8ByteSize

/-- Where a turn of the loop over the markup begins, or the loop ends. -/
inductive AtTurn (markup : String) : Cursor → Prop where
  | start : AtTurn markup ⟨markup, 0⟩
  | turn {c c' : Cursor} {token : Option Token} : AtTurn markup c → c.atEnd = false →
      c.turn? = some (token, c') → AtTurn markup c'

/-- Where a turn of the loop over the attributes of a tag begins. -/
inductive AtTagTurn (markup : String) : Cursor → Prop where
  | enter {c c' : Cursor} {rest tag : String} : AtTurn markup c → c.rest? = some rest →
      beginning rest.toList = .opening → c.tagName? = some (tag, c') → AtTagTurn markup c'
  | turn {c c' : Cursor} {found : Option (String × String)} : AtTagTurn markup c →
      c.tagTurn? = some (.onward found, c') → AtTagTurn markup c'

theorem onBoundary_facing (suffix : s <:+ text) : (facing text s).OnBoundary (String.ofList text) :=
  ⟨rfl, isValid_facing suffix⟩

theorem consumes_facing (suffix : s <:+ text) (within : rest <:+ s)
    (less : rest.length < s.length) : (facing text s).Consumes (facing text rest) := by
  obtain ⟨ahead, rfl⟩ := within
  refine ⟨String.ofList ahead, String.ofList rest, ?_, ?_, (advance_facing ahead suffix).symm⟩
  · rintro none
    rw [String.ofList_eq_empty_iff.mp none] at less
    exact Nat.lt_irrefl _ less
  · rw [rest?_facing suffix, String.ofList_append]

theorem exists_of_opening (kind : beginning s = .opening) : ∃ rest, s = '<' :: rest := by
  unfold beginning at kind
  split at kind
  any_goals cases kind
  split at kind
  · rename_i starts
    obtain ⟨d, rest, same, -⟩ := exists_of_startsTag starts
    exact ⟨d :: rest, same⟩
  · cases kind

/-- A turn moves the cursor from the rest of the text to a shorter one. -/
theorem AtTurn.facing (here : AtTurn (String.ofList text) c) :
    ∃ s, s <:+ text ∧ c = facing text s := by
  induction here with
  | start => exact ⟨text, List.suffix_rfl, (facing_self text).symm⟩
  | turn _ inside run ih =>
    obtain ⟨s, suffix, rfl⟩ := ih
    cases s with
    | nil => cases inside.symm.trans ((atEnd_facing suffix).mpr rfl)
    | cons x s =>
      rw [turn?_facing suffix] at run
      obtain ⟨-, rfl⟩ := Prod.mk.inj (Option.some.inj run)
      exact ⟨_, (next_leaves x s).1.trans suffix, rfl⟩

theorem AtTagTurn.facing (here : AtTagTurn (String.ofList text) c) :
    ∃ s, s <:+ text ∧ c = facing text s := by
  induction here with
  | enter before behind kind named =>
    obtain ⟨s, suffix, rfl⟩ := before.facing
    rw [rest?_facing suffix] at behind
    obtain rfl := Option.some.inj behind
    rw [String.toList_ofList] at kind
    obtain ⟨s, rfl⟩ := exists_of_opening kind
    rw [tagName?_facing suffix] at named
    obtain ⟨-, rfl⟩ := Prod.mk.inj (Option.some.inj named)
    exact ⟨_, (List.dropWhile_suffix _).trans ((List.suffix_cons _ s).trans suffix), rfl⟩
  | turn _ run ih =>
    obtain ⟨s, suffix, rfl⟩ := ih
    obtain ⟨turn, rest, first, leaves⟩ := tagTurn?_facing suffix
    obtain ⟨-, rfl⟩ := Prod.mk.inj (Option.some.inj (first.symm.trans run))
    exact ⟨rest, leaves.suffix.trans suffix, rfl⟩

theorem AtTurn.onBoundary (here : AtTurn (String.ofList text) c) :
    c.OnBoundary (String.ofList text) := by
  obtain ⟨s, suffix, rfl⟩ := here.facing
  exact onBoundary_facing suffix

theorem AtTagTurn.onBoundary (here : AtTagTurn (String.ofList text) c) :
    c.OnBoundary (String.ofList text) := by
  obtain ⟨s, suffix, rfl⟩ := here.facing
  exact onBoundary_facing suffix

/-- No turn over the markup fails, and each reads at least one character. -/
theorem AtTurn.consumes (here : AtTurn (String.ofList text) c) (inside : c.atEnd = false) :
    ∃ token c', c.turn? = some (token, c') ∧ c.Consumes c' := by
  obtain ⟨s, suffix, rfl⟩ := here.facing
  cases s with
  | nil => cases inside.symm.trans ((atEnd_facing suffix).mpr rfl)
  | cons x s =>
    obtain ⟨within, less⟩ := next_leaves x s
    exact ⟨_, _, turn?_facing suffix, consumes_facing suffix within less⟩

/-- No turn over the attributes fails, and each reads at least one character unless the end is
reached, where the loop ends. -/
theorem AtTagTurn.consumes (here : AtTagTurn (String.ofList text) c) :
    ∃ turn c', c.tagTurn? = some (turn, c') ∧ c'.OnBoundary (String.ofList text) ∧
      if c.atEnd then turn = .ended false ∧ c' = c else c.Consumes c' := by
  obtain ⟨s, suffix, rfl⟩ := here.facing
  obtain ⟨turn, rest, run, leaves⟩ := tagTurn?_facing suffix
  refine ⟨turn, _, run, onBoundary_facing (leaves.suffix.trans suffix), ?_⟩
  obtain less | ⟨rfl, ended⟩ := leaves.progress
  · have inside : s ≠ [] := fun none => Nat.not_lt_zero _ (none ▸ less)
    rw [if_neg (mt (atEnd_facing suffix).mp inside)]
    exact consumes_facing suffix leaves.suffix less
  · rw [if_pos ((atEnd_facing suffix).mpr rfl), List.suffix_nil.mp leaves.suffix]
    exact ⟨ended, rfl⟩

/-- The turns lead to the end. -/
theorem atTurn_end (suffix : s <:+ text) (here : AtTurn (String.ofList text) (facing text s)) :
    AtTurn (String.ofList text) (facing text []) := by
  induction length : s.length using Nat.strong_induction_on generalizing s with
  | h n ih =>
    subst length
    cases s with
    | nil => exact here
    | cons x s =>
      have inside : (facing text (x :: s)).atEnd = false :=
        Bool.eq_false_iff.mpr (mt (atEnd_facing suffix).mp (List.cons_ne_nil x s))
      obtain ⟨within, less⟩ := next_leaves x s
      exact ih _ less (within.trans suffix) (here.turn inside (turn?_facing suffix)) rfl

end Cursor

namespace Token

/-- All tokens but closing tags make a node. -/
def makesNode : Token → Bool
  | .closing _ => false
  | _ => true

theorem length_scan (s : List Char) : (scan s).length ≤ s.length := by
  fun_induction scan s with
  | case1 => exact Nat.le_refl _
  | case2 c s behind ih =>
    have one : (next c s).1.toList.length ≤ 1 := by
      cases (next c s).1 <;> simp
    rw [List.length_append, List.length_cons]
    omega

end Token

namespace Markup

mutual

/-- The number of nodes. -/
def size : Markup → Nat
  | .element _ _ children => sizeAll children + 1
  | .text _ => 1
  | .comment _ => 1

def sizeAll : List Markup → Nat
  | [] => 0
  | m :: rest => size m + sizeAll rest

end

theorem sizeAll_append (first later : List Markup) :
    sizeAll (first ++ later) = sizeAll first + sizeAll later := by
  induction first with
  | nil => exact (Nat.zero_add _).symm
  | cons m first ih => rw [List.cons_append, sizeAll, sizeAll, ih, Nat.add_assoc]

theorem sizeAll_reverse (ms : List Markup) : sizeAll ms.reverse = sizeAll ms := by
  induction ms with
  | nil => rfl
  | cons m ms ih => rw [List.reverse_cons, sizeAll_append, ih, sizeAll, sizeAll, sizeAll]; omega

namespace Building

/-- The number of open elements and of the nodes before them. -/
def openSize : List OpenElement → Nat
  | [] => 0
  | e :: rest => sizeAll e.before + 1 + openSize rest

/-- The number of nodes that are built so far, those of the open elements among them. -/
def size (b : Building) : Nat :=
  sizeAll b.content + openSize b.stack

theorem size_add (m : Markup) (b : Building) : (b.add m).size = m.size + b.size := by
  rw [size, size, add, sizeAll, Nat.add_assoc]

theorem size_closeInnermost (b : Building) : b.closeInnermost.size = b.size := by
  unfold closeInnermost
  split
  · rfl
  · rename_i top stack shape
    simp only [size, shape, openSize, sizeAll, Markup.size, sizeAll_reverse]
    omega

theorem size_closeThrough (tag : String) (stack : List OpenElement) (b : Building) :
    (closeThrough tag stack b).size = b.size := by
  induction stack generalizing b with
  | nil => rfl
  | cons top rest ih =>
    rw [closeThrough]
    split
    · exact size_closeInnermost b
    · rw [ih, size_closeInnermost]

theorem size_closeAll (stack : List OpenElement) (b : Building) :
    (closeAll stack b).size = b.size := by
  induction stack generalizing b with
  | nil => rfl
  | cons _ rest ih => rw [closeAll, ih, size_closeInnermost]

theorem stack_closeAll (stack : List OpenElement) (b : Building) (same : b.stack = stack) :
    (closeAll stack b).stack = [] := by
  induction stack generalizing b with
  | nil => exact same
  | cons top rest ih =>
    rw [closeAll]
    refine ih _ ?_
    rw [closeInnermost, same]

theorem size_finish (b : Building) : sizeAll b.finish = b.size := by
  rw [finish, sizeAll_reverse, ← size_closeAll b.stack b, size, stack_closeAll b.stack b rfl]
  rfl

/-- A token adds a node if it makes one. -/
theorem size_step (b : Building) (t : Token) :
    (b.step t).size = b.size + if t.makesNode then 1 else 0 := by
  cases t with
  | opening tag attributes selfClosing =>
    rw [step]
    split
    · exact (size_add _ b).trans (Nat.add_comm 1 b.size)
    · simp only [size, openSize, sizeAll, Token.makesNode, if_true]
      omega
  | closing tag =>
    rw [step, closeTag]
    split
    · exact size_closeThrough tag b.stack b
    · rfl
  | comment data => exact (size_add _ b).trans (Nat.add_comm 1 b.size)
  | text data => exact (size_add _ b).trans (Nat.add_comm 1 b.size)

theorem size_foldl (tokens : List Token) (b : Building) :
    (tokens.foldl step b).size = b.size + tokens.countP Token.makesNode := by
  induction tokens generalizing b with
  | nil => rfl
  | cons t tokens ih => rw [List.foldl_cons, ih, size_step, List.countP_cons]; omega

end Building

theorem sizeAll_ofTokens (tokens : List Token) :
    sizeAll (ofTokens tokens) = tokens.countP Token.makesNode := by
  rw [ofTokens, Building.size_finish, Building.size_foldl]
  exact Nat.zero_add _

end Markup
end ReactiveView
