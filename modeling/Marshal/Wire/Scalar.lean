import Marshal.Stream.Sink
import Marshal.Stream.Source
import Marshal.Wire.Integer
import Marshal.Text.ObjectPath
/-!
# Scalars on the wire

Integers, booleans, doubles, text and signatures, each with the parameters in which the two formats differ: the width of
a boolean, and the width of the length that stands before a text. Without such a length a text is all that is left of
its window. A text ends in a zero byte either way.
-/
namespace Marshal

namespace Put

def int (f : Integer.Format) (n : Int) : Put Unit :=
  match Integer.encode? f n with
  | some bs => writeBytes bs
  | none => throw (.mismatch (.doesNotFit n f.width))

/-- A boolean as an integer of some width. -/
def boolean (width : Nat) (order : ByteOrder) (b : Bool) : Put Unit := int ⟨width, false, order⟩ (if b then 1 else 0)

def double (order : ByteOrder) (bits : Binary64) : Put Unit := writeBytes (order.arrange (Integer.digits 8 bits.toNat))

/-- Characters, after the number of their bytes when `lengthWidth` is not zero. -/
def chars (lengthWidth : Nat) (order : ByteOrder) (cs : List Char) : Put Unit := do
  let bs := Utf8.encode cs
  if lengthWidth = 0 then pure () else int ⟨lengthWidth, false, order⟩ bs.length
  writeBytes bs
  writeByte 0

/-- The first run of surrogates in a text, as an error. -/
def surrogateError (t : Text) : Error :=
  let before := t.takeWhile (fun c => c.isValidChar)
  let run := (t.drop before.length).takeWhile (fun c => !c.isValidChar)
  .surrogates (run.headD 0) before.length run.length

/-- Text of any code points, which cannot be written when there are surrogates. -/
def text (lengthWidth : Nat) (order : ByteOrder) (t : Text) : Put Unit :=
  if t.IsScalar then chars lengthWidth order (t.map Char.ofNat) else throw (surrogateError t)

/-- A signature, after its length in one byte when it is prefixed. -/
def signature (prefixed : Bool) (t : Text) : Put Unit :=
  if Limits.signatureLength < t.length then throw (.mismatch .signatureTooLong)
  else text (if prefixed then 1 else 0) .little t

end Put

namespace Get

def int (f : Integer.Format) : Get Int := do
  return Integer.decode f (← readBytes f.width true)

def boolean (width : Nat) (order : ByteOrder) : Get Bool := do
  let n ← int ⟨width, false, order⟩
  if n = 0 then return false
  else if n = 1 then return true
  else fail (.invalidBoolean n)

def double (order : ByteOrder) : Get Binary64 := do
  return UInt64.ofNat (Integer.ofDigits (order.arrange (← readBytes 8 true)))

def charsOfBytes (bs : List UInt8) : Except DecodeError (List Char) :=
  if bs.contains 0 then .error .nulInside else (Utf8.decode bs).mapError .invalidUtf8

def chars (lengthWidth : Nat) (order : ByteOrder) : Get (List Char) := do
  let bs ←
    if lengthWidth = 0 then
      let bs ← readAll
      if bs.getLast? ≠ some 0 then fail .stringNotEnded
      pure bs.dropLast
    else
      let bs ← readBytes (← int ⟨lengthWidth, false, order⟩) true
      if (← readByte) ≠ 0 then fail .stringNotFollowed
      pure bs
  ofExcept ((charsOfBytes bs).mapError .decode)

def string (lengthWidth : Nat) (order : ByteOrder) : Get String := do
  return String.ofList (← chars lengthWidth order)

def objectPath (lengthWidth : Nat) (order : ByteOrder) : Get String := do
  let s ← string lengthWidth order
  if ObjectPath.isValid (Text.ofString s) then return s else fail (.invalidPath s)

/-- A signature that holds complete types of a format only. Without a length before it, input that is too long for one
is refused before it is read. -/
def signature (prefixed : Bool) (format : Option WireFormat) : Get String := do
  if !prefixed && Limits.signatureLength + 1 < (← remaining) then fail .signatureTooLong
  let s ← string (if prefixed then 1 else 0) .little
  match Signature.parseAll { format } (Text.ofString s) with
  | .ok _ => return s
  | .error e => fail (.invalidSignature e)

end Get

end Marshal
