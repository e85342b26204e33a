import Marshal.Codec.Dbus
import Marshal.Codec.Gvariant
/-!
# Encoding and decoding

The two formats behind one interface. Encoding starts at position zero and gives nothing unless the whole value was
written; decoding takes the whole of its input. Both can be held to a number of bytes.
-/
namespace Marshal.Codec

def put (c : Codec) (v : Value) : Put Unit :=
  match c.format with
  | .dbus => Dbus.put c c.room v
  | .gvariant => Gvariant.put c c.room v

def get (c : Codec) (t : Ty) : Get Value :=
  match c.format with
  | .dbus => Dbus.get c c.room t
  | .gvariant => Gvariant.get c c.room t

def isIndexable : Ty → Bool
  | .array _ | .struct _ | .entry .. => true
  | _ => false

def getChild (c : Codec) (t : Ty) (index : Int) : Get Value :=
  if isIndexable t then
    match c.format with
    | .dbus => Dbus.getChild c t index
    | .gvariant => Gvariant.getChild c t index
  else throw (.notIndexable t)

/-- The type that a caller names by its signature. -/
def typeNamed (c : Codec) (signature : Text) : Except Error Ty :=
  (Signature.parse c.reading signature).mapError .signature

/-- The bytes of a value, at most `cap` of them. -/
def encode (c : Codec) (cap : Option Int) (v : Value) : Except Error (Array UInt8) := Put.run (c.put v) cap

/-- The value of a type that takes the whole of an input of at most `cap` bytes. -/
def decode (c : Codec) (cap : Option Int) (bytes : List UInt8) (t : Ty) : Except Error Value :=
  Get.run (do Get.wrap cap; c.get t) { rest := bytes }

/-- The child at an index of a container that takes the whole of an input. In GVariant its siblings are not decoded. -/
def decodeChild (c : Codec) (cap : Option Int) (bytes : List UInt8) (t : Ty) (index : Int) : Except Error Value :=
  Get.run (do Get.wrap cap; c.getChild t index) { rest := bytes }

end Marshal.Codec
