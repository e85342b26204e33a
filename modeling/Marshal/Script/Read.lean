import Marshal.Codec
/-!
# Scripts that read

A script runs steps on one source, one after the other. A step that fails leaves the source where it had come to, and
the next one goes on from there. The numbers of a step are as they come from outside and may be negative.
-/
namespace Marshal

inductive ReadStep where
  | wrap (limit : Option Int)
  | readByte
  | peekByte
  | remaining
  | isEmpty
  | position
  | finish
  | readBytes (n : Int) (exact : Bool)
  | peekBytes (n : Int) (exact : Bool)
  | readAll
  | int (width : Int) (signed : Bool) (order : ByteOrder)
  | boolean (width : Int) (order : ByteOrder)
  | double (order : ByteOrder)
  | text (lengthWidth : Int) (order : ByteOrder)
  | signature (prefixed : Bool) (format : Option WireFormat)
  | padding (alignment : Int)
  | value (codec : Codec) (ty : Ty)

inductive Answer where
  | nothing
  | count (n : Int)
  | truth (b : Bool)
  | bytes (content : List UInt8)
  | integer (n : Int)
  | double (bits : Binary64)
  | text (content : String)
  | value (value : Value)

namespace ReadStep

/-- A width from outside. To read a negative number of bytes always fails. -/
def getWidth (width : Int) : Get Nat := do
  if width < 0 then discard (Get.readBytes width true)
  return width.toNat

def get : ReadStep → Get Answer
  | .wrap limit => do
    Get.wrap limit
    return .nothing
  | .readByte => return .count (← Get.readByte).toNat
  | .peekByte => return .count (← Get.peekByte).toNat
  | .remaining => return .count (← Get.remaining)
  | .isEmpty => return .truth (← Get.isEmpty)
  | .position => return .count (← Get.position)
  | .finish => do
    Get.finish
    return .nothing
  | .readBytes n exact => return .bytes (← Get.readBytes n exact)
  | .peekBytes n exact => return .bytes (← Get.peekBytes n exact)
  | .readAll => return .bytes (← Get.readAll)
  | .int width signed order => return .integer (← Get.int ⟨← getWidth width, signed, order⟩)
  | .boolean width order => return .truth (← Get.boolean (← getWidth width) order)
  | .double order => return .double (← Get.double order)
  | .text lengthWidth order => return .text (← Get.string (← getWidth lengthWidth) order)
  | .signature pre format => return .text (← Get.signature pre format)
  | .padding alignment => do
    Get.align alignment
    return .nothing
  | .value c t => return .value (← c.get t)

end ReadStep

/-- Runs steps in turn. Gives what each gave or why it failed, and the position after each. -/
def Get.script : List (Get α) → Source → List (Except Error α × Int) × Source
  | [], s => ([], s)
  | get :: gets, s =>
    match get s with
    | .ok a s =>
      let (outcomes, last) := script gets s
      ((.ok a, s.position) :: outcomes, last)
    | .error e s =>
      let (outcomes, last) := script gets s
      ((.error e, s.position) :: outcomes, last)

end Marshal
