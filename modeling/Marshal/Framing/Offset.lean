import Marshal.Stream.Sink
import Marshal.Wire.Integer
/-!
# Framing offsets

A GVariant container locates children of variable size by their ends, kept in a table behind them. All offsets of a
container have the same width, the smallest that can address the whole container, table included; they are
little-endian whatever the byte order of the values. The width follows from the size of the container, and that size
from the width: `containerSize` finds the smallest width that is wide enough.
-/
namespace Marshal.Framing

/-- The width of the offsets in a container that takes `size` bytes, table included. -/
def offsetWidth (size : Int) : Nat :=
  if 0xFFFFFFFF < size then 8
  else if 0xFFFF < size then 4
  else if 0xFF < size then 2
  else if 0 < size then 1
  else 0

/-- The size of a container with `body` bytes of children and `count` offsets. -/
def containerSize (body count : Int) : Int :=
  if count = 0 then body
  else if body + count ≤ 0xFF then body + count
  else if body + 2 * count ≤ 0xFFFF then body + 2 * count
  else if body + 4 * count ≤ 0xFFFFFFFF then body + 4 * count
  else body + 8 * count

/-- The bytes of an offset, none when it is too large for the width. -/
def offsetBytes? (width : Nat) (offset : Int) : Option (List UInt8) := Integer.encode? ⟨width, false, .little⟩ offset

def putOffset (width : Nat) (offset : Int) : Put Unit :=
  if offset < 0 then throw .offsetNegative
  else
    match offsetBytes? width offset with
    | some bs => Put.writeBytes bs
    | none => throw .offsetTooLarge

/-- Writes the table of a container with `body` bytes of children, one offset at a time. -/
def putOffsets (offsets : List Int) (body : Int) : Put Unit :=
  Put.forEach (putOffset (offsetWidth (containerSize body offsets.length))) offsets

structure Window where
  start : Nat
  stop : Nat
deriving DecidableEq, Repr

def Window.of (w : Window) (data : Array UInt8) : List UInt8 := (data.extract w.start w.stop).toList

/-- An index that counts from the end of `size` bytes when it is negative, and not past their start. -/
def fromEnd (size : Nat) (index : Int) : Nat := if index < 0 then (size + index).toNat else index.toNat

def offsetAt (data : Array UInt8) (position width : Int) : Except DecodeError Nat :=
  if position < 0 ∨ (data.size : Int) < position + width then .error (.offsetOutside position)
  else .ok (Integer.ofDigits (Window.of ⟨position.toNat, fromEnd data.size (position + width)⟩ data))

end Marshal.Framing
