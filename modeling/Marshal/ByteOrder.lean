import Marshal.Error
/-!
# Byte order

The order of the bytes of scalars. Each order has a marker, the character that stands in the first byte of a message.
-/
namespace Marshal

inductive ByteOrder where
  | little
  | big
deriving DecidableEq, Repr

namespace ByteOrder

def marker : ByteOrder → CodePoint
  | .little => 'l'.toNat
  | .big => 'B'.toNat

def name (o : ByteOrder) : String := String.ofList [Char.ofNat o.marker]

def ofName? (s : String) : Option ByteOrder := [little, big].find? (fun o => o.name == s)

/-- The order with a marker. A number that is too large for a character is told apart from one that marks no order. -/
def ofMarker (n : Int) : Except Error ByteOrder :=
  match CodePoint.ofInt n with
  | .error .tooLarge => .error (.codePoint .tooLarge)
  | _ =>
    if n = little.marker then .ok .little
    else if n = big.marker then .ok .big
    else .error (.notMarker n)

/-- Bytes in little-endian order, put into this order, and back. -/
def arrange (o : ByteOrder) (bs : List UInt8) : List UInt8 :=
  match o with
  | .little => bs
  | .big => bs.reverse

theorem arrange_arrange (o : ByteOrder) (bs : List UInt8) : o.arrange (o.arrange bs) = bs := by
  cases o <;> simp [arrange]

end ByteOrder

end Marshal
