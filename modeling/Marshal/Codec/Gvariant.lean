import Marshal.Codec.Basic
import Marshal.Framing.Collection
import Marshal.Framing.Tuple
import Marshal.Value.Basic
import Marshal.Wire.Scalar
/-!
# The GVariant format

No value says how long it is: each takes the whole of its window, which its container locates through framing offsets.
So one child can be read without its siblings. A variant is what it holds, a zero byte, and the signature. A maybe that
holds nothing takes no bytes; one that holds a value of variable size ends in a zero byte, which tells an empty value
from none.
-/
namespace Marshal.Gvariant

open Framing

def booleanWidth : Nat := 1

/-- Children with what their container has to know of them. -/
def laidOut (vs : List Value) : List (Layout × Value) := vs.map (fun v => (Layout.ofTy v.ty, v))

/-! ## Encoding -/

def putScalar (o : ByteOrder) : Scalar → Put Unit
  | .int k n => Put.int ⟨k.width, k.isSigned, o⟩ n
  | .boolean b => Put.boolean booleanWidth o b
  | .double bits => Put.double o bits
  | .text .signature s => Put.signature false (Text.ofString s)
  | .text _ s => Put.chars 0 o s.toList

def put (c : Codec) : (room : Nat) → Value → Put Unit
  | 0, _ => throw (.valueTooDeep c.maxDepth)
  | room + 1, v => do
    Put.pad v.ty.gvariantAlignment
    match v with
    | .scalar s => putScalar c.order s
    | .array t items => putCollection (put c room) (Layout.ofTy t) items
    | .struct members => putTuple (put c room) v.ty.gvariantAlignment (laidOut members)
    | .entry k w => putTuple (put c room) v.ty.gvariantAlignment (laidOut [.scalar k, w])
    | .variant w => do
      put c room w
      Put.writeByte 0
      Put.writeBytes (w.ty.signature.map UInt8.ofNat)
    | .nothing _ => pure ()
    | .just w => do
      put c room w
      if w.ty.fixedSize.isSome then pure () else Put.writeByte 0

/-! ## Decoding -/

def getScalar (o : ByteOrder) : Basic → Get Scalar
  | .int k => return .int k (← Get.int ⟨k.width, k.isSigned, o⟩)
  | .boolean => return .boolean (← Get.boolean booleanWidth o)
  | .double => return .double (← Get.double o)
  | .text .string => return .text .string (← Get.string 0 o)
  | .text .objectPath => return .text .objectPath (← Get.objectPath 0 o)
  | .text .signature => return .text .signature (← Get.signature false (some .gvariant))

/-- What a step reads from bytes that it has to take all of. -/
def inside (position : Int) (bytes : List UInt8) (get : Get Value) : Except Error Value :=
  Get.run get { position, rest := bytes }

def inWindow (base : Int) (data : Array UInt8) (w : Window) (get : Get Value) : Except Error Value :=
  inside (base + w.start) (w.of data) get

/-- The elements of an array that takes all that is left, located and read one after the other. -/
def getElements (l : Layout) (get : Get Value) : Get (List Value) := do
  let base ← Get.position
  let data := (← Get.readAll).toArray
  let f ← Get.ofExcept (frame data l.fixedSize)
  Get.ofExcept ((List.range f.count).mapM fun i => do
    inWindow base data (← elementWindow data f l i) get)

/-- The members of a tuple that takes all that is left; all are located before one is read. -/
def getMembers (get : Ty → Get Value) (ts : List Ty) : Get (List Value) := do
  let base ← Get.position
  let data := (← Get.readAll).toArray
  let ws ← Get.ofExcept (windows data (ts.map Layout.ofTy))
  Get.ofExcept ((ws.zip ts).mapM fun (w, t) => inWindow base data w (get t))

def signatureType (c : Codec) (bytes : List UInt8) : Except DecodeError Ty :=
  if Limits.signatureLength < bytes.length then .error .variantSignatureTooLong
  else
    let ascii := bytes.takeWhile (· < 0x80)
    match bytes.drop ascii.length with
    | b :: _ => .error (.variantSignatureNotAscii bytes b ascii.length)
    | [] => (Signature.parse c.reading (bytes.map UInt8.toNat)).mapError (.variantSignatureBytes bytes)

/-- Splits the bytes of a variant at their last zero, into the value and the signature. -/
def splitVariant (bytes : List UInt8) : Option (List UInt8 × List UInt8) :=
  let signature := (bytes.reverse.takeWhile (· ≠ 0)).reverse
  if signature.length < bytes.length then some (bytes.take (bytes.length - signature.length - 1), signature) else none

/-- Reads a value of a type that takes all that is left if its size is not fixed, with room for a number of levels. -/
def get (c : Codec) : (room : Nat) → Ty → Get Value
  | 0, _ => Get.fail (.tooDeep c.maxDepth)
  | room + 1, t => do
    Get.pad t.gvariantAlignment
    match t with
    | .basic b => return .scalar (← getScalar c.order b)
    | .array t => return .array t (← getElements (Layout.ofTy t) (get c room t))
    | .struct ts => return .struct (← getMembers (get c room) ts)
    | .entry k t => do
      match ← getMembers (get c room) [.basic k, t] with
      | [.scalar k, v] => return .entry k v
      | vs => return .struct vs
    | .variant => do
      let base ← Get.position
      match splitVariant (← Get.readAll) with
      | none => Get.fail .noSeparator
      | some (value, signature) =>
        let t ← Get.ofExcept ((signatureType c signature).mapError .decode)
        return .variant (← Get.ofExcept (inside base value (get c room t)))
    | .maybe t => do
      let base ← Get.position
      let bytes ← Get.readAll
      if bytes.isEmpty then return .nothing t
      else if t.fixedSize.isSome then return .just (← Get.ofExcept (inside base bytes (get c room t)))
      else if bytes.getLast? ≠ some 0 then Get.fail .maybeNotEnded
      else return .just (← Get.ofExcept (inside base bytes.dropLast (get c room t)))

/-- Reads one child of a container that takes all that is left, without its siblings. -/
def getChild (c : Codec) (t : Ty) (index : Int) : Get Value := do
  match t, t.members? with
  | .array t, _ => do
    let base ← Get.position
    let data := (← Get.readAll).toArray
    let w ← Get.ofExcept (itemWindow data (Layout.ofTy t) index)
    Get.ofExcept (inWindow base data w (get c c.childRoom t))
  | _, some ts =>
    if index < 0 then throw (.noMember t ts.length index)
    match ts[index.toNat]? with
    | none => throw (.noMember t ts.length index)
    | some member => do
      let base ← Get.position
      let data := (← Get.readAll).toArray
      let w ← Get.ofExcept (memberWindow data (ts.map Layout.ofTy) index)
      Get.ofExcept (inWindow base data w (get c c.childRoom member))
  | _, none => throw (.notIndexable t)

end Marshal.Gvariant
