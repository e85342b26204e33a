import Marshal.ByteOrder
/-!
# Integers of a fixed width

An integer of `width` bytes is its residue modulo `256 ^ width`, least significant byte first, then put into the byte
order. Signed integers are in two's complement.
-/
namespace Marshal.Integer

-- Powers are those of the core library, whatever else is in scope.
attribute [local instance (high)] instPowNat

/-- The least significant `width` bytes, the lowest first. -/
def digits : (width n : Nat) → List UInt8
  | 0, _ => []
  | w + 1, n => UInt8.ofNat (n % 256) :: digits w (n / 256)

/-- The number with these bytes, the lowest first. -/
def ofDigits : List UInt8 → Nat
  | [] => 0
  | b :: bs => b.toNat + 256 * ofDigits bs

structure Format where
  width : Nat
  signed : Bool
  order : ByteOrder
deriving DecidableEq, Repr

/-- The numbers that the format can hold are those from `least` up to, and without, `bound`. -/
def least (width : Nat) (signed : Bool) : Int := if signed then -(2 ^ (8 * width - 1)) else 0

def bound (width : Nat) (signed : Bool) : Int := if signed then 2 ^ (8 * width - 1) else 2 ^ (8 * width)

def Fits (width : Nat) (signed : Bool) (n : Int) : Prop := least width signed ≤ n ∧ n < bound width signed

instance (width : Nat) (signed : Bool) (n : Int) : Decidable (Fits width signed n) :=
  inferInstanceAs (Decidable (_ ∧ _))

/-- The bytes of a number, none when the format cannot hold it. -/
def encode? (f : Format) (n : Int) : Option (List UInt8) :=
  if Fits f.width f.signed n then some (f.order.arrange (digits f.width (n % 256 ^ f.width).toNat)) else none

/-- The number in the given bytes, all of them. -/
def decode (f : Format) (bs : List UInt8) : Int :=
  let n := ofDigits (f.order.arrange bs)
  if f.signed ∧ 256 ^ bs.length ≤ 2 * n then n - 256 ^ bs.length else n

end Marshal.Integer
