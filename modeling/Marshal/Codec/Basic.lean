import Marshal.ByteOrder
/-!
# Codecs

What a call to an encoder or decoder is told: the format, the byte order and the limits. A codec's `room` is the number
of levels that a value may have; each container passes one level less to its children, and a value that is left with no
room is too deep.
-/
namespace Marshal

structure Codec where
  format : WireFormat
  order : ByteOrder
  /-- The greatest depth of a value; the outermost one has depth zero. -/
  maxDepth : Int := Limits.depth
  /-- The greatest number of bytes in the elements of a D-Bus array. -/
  maxArrayLength : Int := Limits.arrayLength
deriving DecidableEq, Repr

namespace Codec

/-- The room of the outermost value. -/
def room (c : Codec) : Nat := (c.maxDepth + 1).toNat

/-- The room of a value at a depth. -/
def roomAt (c : Codec) (d : Int) : Nat := (c.maxDepth + 1 - d).toNat

/-- The room of a child of the outermost value. -/
def childRoom (c : Codec) : Nat := c.maxDepth.toNat

/-- How the codec reads the signature of what a variant holds. -/
def reading (c : Codec) : Signature.Reading := ⟨some c.format, c.maxDepth⟩

end Codec

end Marshal
