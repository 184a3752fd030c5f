import ReactiveView.Number.Basic

/-! Data values. An object is a list of fields; every function here that builds one keeps the keys
distinct and in ascending order, which is the order of their code points. -/
namespace ReactiveView

inductive Value where
  | null
  | bool (b : Bool)
  | number (n : Number)
  | string (s : String)
  | array (items : List Value)
  | object (fields : List (String × Value))
deriving Inhabited

namespace Fields

variable {α : Type}

/-- Puts a field in its place, or replaces the value under its key. -/
def insert (key : String) (a : α) : List (String × α) → List (String × α)
  | [] => [(key, a)]
  | (k, b) :: rest =>
    if key < k then (key, a) :: (k, b) :: rest
    else if key = k then (key, a) :: rest
    else (k, b) :: insert key a rest

/-- Of two pairs with one key the later one counts. -/
def ofPairs (pairs : List (String × α)) : List (String × α) :=
  pairs.foldl (fun fields p => insert p.1 p.2 fields) []

def Ascending (fields : List (String × α)) : Prop :=
  fields.Pairwise fun p q => p.1 < q.1

theorem mem_insert {key : String} {a : α} {p : String × α} {fields : List (String × α)}
    (member : p ∈ insert key a fields) : p = (key, a) ∨ p ∈ fields := by
  induction fields with
  | nil => simpa [insert] using member
  | cons f rest ih =>
    simp only [insert] at member
    split at member
    · simpa using member
    · split at member
      · rcases List.mem_cons.mp member with same | later
        · exact .inl same
        · exact .inr (List.mem_cons_of_mem _ later)
      · rcases List.mem_cons.mp member with same | later
        · exact .inr (by simp [same])
        · exact (ih later).imp_right (List.mem_cons_of_mem _)

theorem Ascending.insert {fields : List (String × α)} (ascending : Ascending fields)
    (key : String) (a : α) : Ascending (Fields.insert key a fields) := by
  induction fields with
  | nil => simp [Fields.insert, Ascending]
  | cons f rest ih =>
    obtain ⟨above, ordered⟩ := List.pairwise_cons.mp ascending
    simp only [Fields.insert]
    split
    · rename_i before
      refine List.pairwise_cons.mpr ⟨fun p member => ?_, ascending⟩
      rcases List.mem_cons.mp member with rfl | later
      · exact before
      · exact String.lt_trans before (above p later)
    · rename_i notBefore
      split
      · rename_i same
        exact List.pairwise_cons.mpr ⟨fun p member => same ▸ above p member, ordered⟩
      · rename_i other
        refine List.pairwise_cons.mpr ⟨fun p member => ?_, ih ordered⟩
        rcases mem_insert member with rfl | later
        · exact Std.lt_of_le_of_ne (String.not_lt.mp notBefore) fun same => other same.symm
        · exact above p later

theorem ascending_ofPairs (pairs : List (String × α)) : Ascending (ofPairs pairs) := by
  have keeps : ∀ (pairs fields : List (String × α)), Ascending fields →
      Ascending (pairs.foldl (fun fields p => insert p.1 p.2 fields) fields) := by
    intro pairs
    induction pairs with
    | nil => exact fun _ h => h
    | cons p rest ih => exact fun fields h => ih _ (h.insert p.1 p.2)
  exact keeps pairs [] List.Pairwise.nil

end Fields

namespace Value

def ofPairs (pairs : List (String × Value)) : Value :=
  .object (Fields.ofPairs pairs)

def ofNat (n : Nat) : Value :=
  .number (.ofNat n)

def strings (items : List String) : Value :=
  .array (items.map .string)

def isNull : Value → Bool
  | .null => true
  | _ => false

def isScalar : Value → Bool
  | .array _ | .object _ => false
  | _ => true

mutual

/-- Equality as change detection sees it: numbers by value, arrays and objects member by member. -/
def strictEq : Value → Value → Bool
  | .null, .null => true
  | .bool a, .bool b => a == b
  | .number x, .number y => x.sameValue y
  | .string s, .string t => s == t
  | .array xs, .array ys => strictEqItems xs ys
  | .object fs, .object gs => strictEqFields fs gs
  | _, _ => false

def strictEqItems : List Value → List Value → Bool
  | [], [] => true
  | x :: xs, y :: ys => strictEq x y && strictEqItems xs ys
  | _, _ => false

/-- Keys are in order on both sides, so fields correspond by position. -/
def strictEqFields : List (String × Value) → List (String × Value) → Bool
  | [], [] => true
  | (k, x) :: fs, (l, y) :: gs => k == l && strictEq x y && strictEqFields fs gs
  | _, _ => false

end

mutual

/-- The text a bound node shows. A null inside an array is empty. -/
def display : Value → String
  | .null => "null"
  | .bool b => if b then "true" else "false"
  | .number n => n.display
  | .string s => s
  | .array items => ",".intercalate (displayItems items)
  | .object _ => "[object Object]"

def displayItems : List Value → List String
  | [] => []
  | .null :: rest => "" :: displayItems rest
  | item :: rest => display item :: displayItems rest

end

/-- The text written into a node property, which null clears. -/
def propertyText : Value → String
  | .null => ""
  | v => v.display

mutual

/-- Every object in the value has distinct keys in ascending order. -/
def Canonical : Value → Prop
  | .array items => CanonicalItems items
  | .object fields => Fields.Ascending fields ∧ CanonicalFields fields
  | _ => True

def CanonicalItems : List Value → Prop
  | [] => True
  | v :: rest => Canonical v ∧ CanonicalItems rest

def CanonicalFields : List (String × Value) → Prop
  | [] => True
  | (_, v) :: rest => Canonical v ∧ CanonicalFields rest

end

end Value
end ReactiveView
