import ReactiveView.Number.Binary64

/-! The fewest decimal digits that read back as a given binary64 number, and the positional and
scientific texts made of them. On the grid of each digit count the two neighbours of the number are
tried; the first count with a neighbour that rounds back wins, and of two such neighbours the
nearer. -/
namespace ReactiveView.Shortest

/-- Which of two equally near neighbours is taken. -/
inductive Tie where
  | up
  | even
deriving DecidableEq

/-- A positive decimal `digits * 10 ^ exponent`. -/
structure Decimal where
  digits : Nat
  exponent : Int

/-- A positive number in quarters of a unit of 2^-1074, with the ends of the interval of reals that
round to it. The ends belong to it when the significand is even. -/
structure Interval where
  value : Nat
  low : Nat
  high : Nat
  closed : Bool

def quartersPerOne : Nat := 4 * Binary64.unitsPerOne

/-- The gap below a power of two is half the gap above it. -/
def intervalOf (x : Binary64) : Interval :=
  let gap := 1 <<< x.place
  let below := if x.significand = 1 <<< 52 && 1 < x.exponentField then gap else 2 * gap
  let value := 4 * x.magnitude
  { value, low := value - below, high := value + 2 * gap, closed := x.significand % 2 == 0 }

/-- `d * 10 ^ e` and a count of quarters, brought to one scale. -/
def Decimal.scaled (d : Decimal) (quarters : Nat) : Nat × Nat :=
  (d.digits * Nat.pow 10 d.exponent.toNat * quartersPerOne,
    quarters * Nat.pow 10 (-d.exponent).toNat)

def Interval.holds (i : Interval) (d : Decimal) : Bool :=
  let (dl, low) := d.scaled i.low
  let (dh, high) := d.scaled i.high
  if i.closed then low ≤ dl && dh ≤ high else low < dl && dh < high

/-- The number of leading zeros after the point of `value / quartersPerOne`, a number below one. -/
def leadingZeros (value : Nat) : Nat → Nat
  | 0 => 0
  | fuel + 1 => if quartersPerOne ≤ value * 10 then 0 else leadingZeros (value * 10) fuel + 1

/-- The `k` with `10 ^ (k - 1) ≤ value < 10 ^ k`. -/
def leadingPlace (value : Nat) : Int :=
  if quartersPerOne ≤ value then (Nat.toDigits 10 (value / quartersPerOne)).length
  else -(leadingZeros value 400 : Nat)

/-- Of the neighbours `d` and `d + 1` on one grid, those that read back, and the nearer of two. -/
def choose (tie : Tie) (i : Interval) (d : Nat) (exponent : Int) : Option Decimal :=
  let lower : Decimal := ⟨d, exponent⟩
  let upper : Decimal := ⟨d + 1, exponent⟩
  match i.holds lower && d ≠ 0, i.holds upper with
  | false, false => none
  | true, false => some lower
  | false, true => some upper
  | true, true =>
    let (sum, twice) := Decimal.scaled ⟨2 * d + 1, exponent⟩ (2 * i.value)
    if twice < sum then some lower
    else if sum < twice then some upper
    else if tie = .even && d % 2 == 0 then some lower
    else some upper

/-- Tries the grids of `count`, `count + 1`, … digits. -/
def search (tie : Tie) (i : Interval) (leading : Int) (count : Nat) : Nat → Option Decimal
  | 0 => none
  | fuel + 1 =>
    let exponent := leading - count
    let d := i.value * Nat.pow 10 (-exponent).toNat / (quartersPerOne * Nat.pow 10 exponent.toNat)
    (choose tie i d exponent).orElse fun _ => search tie i leading (count + 1) fuel

/-- The shortest decimal of the magnitude of `x`; zero for the zeros. -/
def ofBinary64 (tie : Tie) (x : Binary64) : Decimal :=
  let i := intervalOf x
  if x.magnitude = 0 then ⟨0, 0⟩
  else (search tie i (leadingPlace i.value) 1 17).getD ⟨0, 0⟩

/-- The digits without trailing zeros, and the place of the point after the first of them. -/
def Decimal.normal (d : Decimal) : List Char × Int :=
  let digits := Nat.toDigits 10 d.digits
  let kept := (digits.reverse.dropWhile (· == '0')).reverse
  (if kept = [] then ['0'] else kept, d.exponent + digits.length)

def zeros (n : Nat) : List Char :=
  List.replicate n '0'

/-- Digits with the point `point` places after the start; `whole` ends a number without a
fraction. -/
def positional (whole : String) (digits : List Char) (point : Int) : String :=
  if point ≤ 0 then "0." ++ String.ofList (zeros (-point).toNat ++ digits)
  else if (digits.length : Int) ≤ point then
    String.ofList (digits ++ zeros (point.toNat - digits.length)) ++ whole
  else String.ofList (digits.take point.toNat ++ '.' :: digits.drop point.toNat)

/-- One digit, the point and the other digits, and an exponent that always has a sign. -/
def scientific (digits : List Char) (point : Int) : String :=
  String.ofList (digits.take 1) ++
    (if digits.length = 1 then "" else "." ++ String.ofList (digits.drop 1)) ++
    (if 0 < point then "e+" else "e") ++ toString (point - 1)

end ReactiveView.Shortest
