/-! Finite binary64 numbers as bit patterns. Their exact value is an integer count of units of
2^-1074, which decides equality and order without rounding; `Binary64.ofInt` rounds an integer to
the nearest number, a tie going to the even significand. -/
namespace ReactiveView

/-- A bit pattern whose exponent field is not the one reserved for infinities and NaN. -/
structure Binary64 where
  bits : UInt64
  finite : (bits.toNat >>> 52) % 2048 < 2047
deriving DecidableEq

namespace Binary64

def ofBits? (bits : UInt64) : Option Binary64 :=
  if h : (bits.toNat >>> 52) % 2048 < 2047 then some ⟨bits, h⟩ else none

def zero : Binary64 := ⟨0, by decide⟩

def negative (x : Binary64) : Bool :=
  1 <<< 63 ≤ x.bits.toNat

def exponentField (x : Binary64) : Nat :=
  (x.bits.toNat >>> 52) % 2048

/-- The magnitude is `significand * 2 ^ place` units. -/
def significand (x : Binary64) : Nat :=
  (if x.exponentField = 0 then 0 else 1 <<< 52) + x.bits.toNat % (1 <<< 52)

def place (x : Binary64) : Nat :=
  x.exponentField - 1

/-- How many units of 2^-1074 make one. -/
def unitsPerOne : Nat := 1 <<< 1074

def magnitude (x : Binary64) : Nat :=
  x.significand <<< x.place

def units (x : Binary64) : Int :=
  if x.negative then -(x.magnitude : Int) else x.magnitude

def isWhole (x : Binary64) : Bool :=
  x.magnitude % unitsPerOne == 0

/-- The integer part, cut towards zero. -/
def truncate (x : Binary64) : Int :=
  x.units.tdiv unitsPerOne

/-- Both zeros are equal. -/
def sameValue (x y : Binary64) : Bool :=
  x.units == y.units

def lessThan (x y : Binary64) : Bool :=
  x.units < y.units

/-- `n / 2 ^ shift` rounded to an integer, a tie to the even one. -/
def roundShift (n shift : Nat) : Nat :=
  let unit := 1 <<< shift
  let q := n / unit
  let twice := 2 * (n % unit)
  if twice > unit || (twice == unit && q % 2 == 1) then q + 1 else q

/-- The bits of the number nearest to a natural number below 2^1023. A significand that rounds
up to 2^53 carries into the exponent field. -/
def magnitudeBits (n : Nat) : Nat :=
  if n = 0 then 0
  else if n.log2 ≤ 52 then ((1023 + n.log2) <<< 52) + ((n <<< (52 - n.log2)) - (1 <<< 52))
  else ((1023 + n.log2) <<< 52) + (roundShift n (n.log2 - 52) - (1 <<< 52))

def ofInt (n : Int) : Binary64 :=
  let sign := if n < 0 then 1 <<< 63 else 0
  (ofBits? (UInt64.ofNat (sign + magnitudeBits n.natAbs))).getD zero

def toFloat (x : Binary64) : Float :=
  Float.ofBits x.bits

def ofFloat? (f : Float) : Option Binary64 :=
  ofBits? f.toBits

end Binary64
end ReactiveView
