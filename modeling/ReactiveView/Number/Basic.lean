import ReactiveView.Number.Shortest

/-! Numbers as data holds them: whole numbers of 64 bits, signed or unsigned, and binary64 numbers.
They are compared as binary64 numbers, so a whole number is first rounded to the nearest one. -/
namespace ReactiveView

/-- An integer that fits in 64 bits, signed or unsigned. -/
structure Whole where
  val : Int
  lower : -0x8000000000000000 ≤ val
  upper : val < 0x10000000000000000
deriving DecidableEq

namespace Whole

/-- The nearest whole number in range. -/
def clamp (n : Int) : Whole :=
  ⟨max (-0x8000000000000000) (min n 0xffffffffffffffff), by omega, by omega⟩

/-- The signed number that agrees with `n` modulo 2^64. -/
def wrap (n : Int) : Whole :=
  ⟨n.bmod 0x10000000000000000,
    by have := @Int.le_bmod n 0x10000000000000000 (by decide); omega,
    by have := @Int.bmod_lt n 0x10000000000000000 (by decide); omega⟩

end Whole

inductive Number where
  | whole (n : Whole)
  | double (x : Binary64)
deriving DecidableEq

namespace Number

def ofNat (n : Nat) : Number :=
  .whole (.clamp n)

def toBinary64 : Number → Binary64
  | .whole n => .ofInt n.val
  | .double x => x

/-- The value as a signed whole number, which a double never is. -/
def signed? : Number → Option Int
  | .whole n => if n.val < 0x8000000000000000 then some n.val else none
  | .double _ => none

def sameValue (x y : Number) : Bool :=
  x.toBinary64.sameValue y.toBinary64

/-- Whole doubles below 10^21 are written as integers, and all others positionally. -/
def display : Number → String
  | .whole n => toString n.val
  | .double x =>
    if x.isWhole && x.magnitude < Nat.pow 10 21 * Binary64.unitsPerOne then toString x.truncate
    else
      let (digits, point) := (Shortest.ofBinary64 .up x).normal
      (if x.negative then "-" else "") ++ Shortest.positional "" digits point

/-- Doubles keep a fraction or an exponent, so that they read back as doubles. -/
def literal : Number → String
  | .whole n => toString n.val
  | .double x =>
    let (digits, point) := (Shortest.ofBinary64 .even x).normal
    (if x.negative then "-" else "") ++
      if -5 < point && point ≤ 16 then Shortest.positional ".0" digits point
      else Shortest.scientific digits point

end Number
end ReactiveView
