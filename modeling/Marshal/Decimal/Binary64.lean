/-!
# Double precision numbers by their bits

A double is kept as its 64 bits, so that every NaN payload and both zeros survive. What is computed with one is exact
integer arithmetic: `parts` gives its significand and exponent, `ofInt?` is the double nearest to an integer, `toInt?`
the integer that a double is, `same` is equality of numbers and `equalsInt` compares with an integer.
-/
namespace Marshal

abbrev Binary64 := UInt64

namespace Binary64

-- Powers are those of the core library, whatever else is in scope.
attribute [local instance (high)] instPowNat

def isNegative (b : Binary64) : Bool := 2 ^ (63 : Nat) ≤ b.toNat
def biasedExponent (b : Binary64) : Nat := b.toNat / 2 ^ (52 : Nat) % 2 ^ (11 : Nat)
def fraction (b : Binary64) : Nat := b.toNat % 2 ^ (52 : Nat)

def isFinite (b : Binary64) : Bool := b.biasedExponent < 2047
def isNaN (b : Binary64) : Bool := b.biasedExponent == 2047 && b.fraction != 0
def isZero (b : Binary64) : Bool := b.biasedExponent == 0 && b.fraction == 0

/-- A finite double is `significand * 2 ^ (exponent - 1075)`, up to its sign. -/
structure Parts where
  significand : Nat
  exponent : Nat

/-- The significand with its hidden bit, and the exponent, of a finite double. Subnormal numbers have no hidden bit and
share the exponent of the smallest normal ones. -/
def parts (b : Binary64) : Parts :=
  if b.biasedExponent = 0 then ⟨b.fraction, 1⟩ else ⟨2 ^ (52 : Nat) + b.fraction, b.biasedExponent⟩

/-- Equality of numbers: the two zeros are equal and a NaN equals nothing. -/
def same (a b : Binary64) : Bool := !a.isNaN && !b.isNaN && (a == b || (a.isZero && b.isZero))

/-- The integer that a double is, none when it is not finite or has a fraction. -/
def toInt? (b : Binary64) : Option Int :=
  let scaled := b.parts.significand * 2 ^ b.parts.exponent
  let n : Nat := scaled / 2 ^ (1075 : Nat)
  if b.isFinite && scaled % 2 ^ (1075 : Nat) == 0 then some (if b.isNegative then -(n : Int) else n) else none

def equalsInt (b : Binary64) (n : Int) : Bool := b.toInt? == some n

/-- The bits of the double nearest to a positive integer, ties to the even significand, before the range is checked. -/
def roundBits (n : Nat) : Nat :=
  let shift := n.log2 - 52
  let kept := n * 2 ^ (52 - n.log2) / 2 ^ shift
  let lost := n % 2 ^ shift
  let up := 2 ^ shift < 2 * lost || (2 ^ shift == 2 * lost && shift != 0 && kept % 2 == 1)
  (n.log2 + 1023) * 2 ^ (52 : Nat) + (kept + (if up then 1 else 0) - 2 ^ (52 : Nat))

/-- The double nearest to an integer, none when it lies past the largest finite double. -/
def ofInt? (n : Int) : Option Binary64 :=
  if n = 0 then some 0
  else
    let bits := roundBits n.natAbs
    if bits < 2047 * 2 ^ (52 : Nat) then some (UInt64.ofNat (bits + if n < 0 then 2 ^ (63 : Nat) else 0)) else none

end Binary64

end Marshal
