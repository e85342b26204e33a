import Marshal.Codec.Basic
import Marshal.Value.Basic
import Marshal.Wire.Padding
import Marshal.Wire.Scalar
/-!
# The D-Bus format

Every value is aligned from the start of the message. Only arrays say how long they are: the number of bytes that their
elements take stands before them, without the padding up to the first element, which is there even when the array is
empty. The length is known once the elements are written, so it is filled in afterwards. A variant carries the signature
of what it holds.
-/
namespace Marshal.Dbus

def booleanWidth : Nat := 4
def lengthWidth : Nat := 4

def lengthFormat (o : ByteOrder) : Integer.Format := ⟨lengthWidth, false, o⟩

/-- The alignment of a type, which a maybe type does not have. -/
def alignment (t : Ty) : Except Error Nat :=
  match t.dbusAlignment? with
  | some a => .ok a
  | none => .error .maybeUnsupported

/-! ## Encoding -/

def putScalar (o : ByteOrder) : Scalar → Put Unit
  | .int k n => Put.int ⟨k.width, k.isSigned, o⟩ n
  | .boolean b => Put.boolean booleanWidth o b
  | .double bits => Put.double o bits
  | .text .signature s =>
    match Signature.parseAll { format := some .dbus } (Text.ofString s) with
    | .ok _ => Put.signature true (Text.ofString s)
    | .error e => throw (.mismatch (.signatureUnfit s e))
  | .text _ s => Put.chars lengthWidth o s.toList

def putAlignment (t : Ty) : Put Nat :=
  match alignment t with
  | .ok a => pure a
  | .error e => throw e

def putArray (c : Codec) (put : Value → Put Unit) (element : Ty) (items : List Value) : Put Unit := do
  let a ← putAlignment element
  let lengthPosition ← Put.position
  Put.int (lengthFormat c.order) 0
  Put.pad a
  let start ← Put.position
  Put.forEach put items
  let length := (← Put.position) - start
  if c.maxArrayLength < length then throw (.arrayTooLong length c.maxArrayLength)
  match Integer.encode? (lengthFormat c.order) length with
  | some bs => Put.overwrite lengthPosition bs
  | none => throw .offsetTooLarge

def put (c : Codec) : (room : Nat) → Value → Put Unit
  | 0, _ => throw (.valueTooDeep c.maxDepth)
  | room + 1, v => do
    Put.pad (← putAlignment v.ty)
    match v with
    | .scalar s => putScalar c.order s
    | .array t items => putArray c (put c room) t items
    | .struct members => Put.forEach (put c room) members
    | .entry k v => do
      put c room (.scalar k)
      put c room v
    | .variant v => do
      Put.signature true v.ty.signature
      put c room v
    | .nothing _ | .just _ => throw .maybeUnsupported

/-! ## Decoding -/

def getScalar (o : ByteOrder) : Basic → Get Scalar
  | .int k => return .int k (← Get.int ⟨k.width, k.isSigned, o⟩)
  | .boolean => return .boolean (← Get.boolean booleanWidth o)
  | .double => return .double (← Get.double o)
  | .text .string => return .text .string (← Get.string lengthWidth o)
  | .text .objectPath => return .text .objectPath (← Get.objectPath lengthWidth o)
  | .text .signature => return .text .signature (← Get.signature true (some .dbus))

/-- Items up to a position, at most `n` of them, after those in `items`, which are kept last first. -/
def getUntil (stop : Int) (get : Get Value) : (n : Nat) → (items : List Value) → Get (List Value)
  | 0, items => return items.reverse
  | n + 1, items => do
    if (← Get.position) < stop then getUntil stop get n ((← get) :: items) else return items.reverse

/-- The elements of an array. Each takes a byte or more, so there are at most as many as bytes. -/
def getArray (c : Codec) (get : Get Value) (element : Ty) : Get (List Value) := do
  let a ← Get.ofExcept (alignment element)
  let length := (← Get.int (lengthFormat c.order)).toNat
  if c.maxArrayLength < length then Get.fail (.arrayOverLimit length c.maxArrayLength)
  Get.pad a
  if !(← Get.has length) then Get.fail (.arrayUnderrun length (← Get.remaining))
  let stop := (← Get.position) + length
  let items ← getUntil stop get length []
  let position ← Get.position
  if position ≠ stop then Get.fail (.arrayMisfit position stop)
  return items

def getEach (get : Ty → Get Value) : List Ty → Get (List Value)
  | [] => return []
  | t :: ts => do
    let v ← get t
    return v :: (← getEach get ts)

def getKey (c : Codec) (room : Nat) (k : Basic) : Get Scalar := do
  if room = 0 then Get.fail (.tooDeep c.maxDepth)
  Get.pad k.dbusAlignment
  getScalar c.order k

def get (c : Codec) : (room : Nat) → Ty → Get Value
  | 0, _ => Get.fail (.tooDeep c.maxDepth)
  | room + 1, t => do
    Get.pad (← Get.ofExcept (alignment t))
    match t with
    | .basic b => return .scalar (← getScalar c.order b)
    | .array t => return .array t (← getArray c (get c room t) t)
    | .struct ts => return .struct (← getEach (get c room) ts)
    | .entry k t => do
      let k ← getKey c room k
      return .entry k (← get c room t)
    | .variant => do
      let s ← Get.signature true none
      match Signature.parse c.reading (Text.ofString s) with
      | .ok t => return .variant (← get c room t)
      | .error e => Get.fail (.variantSignature s e)
    | .maybe _ => throw .maybeUnsupported

/-- Reads one child of a container. Nothing tells where it is, so the whole container is read. -/
def getChild (c : Codec) (t : Ty) (index : Int) : Get Value := do
  let children := (← get c c.room t).children
  if index < 0 then throw (.noChild t children.length index)
  match children[index.toNat]? with
  | some v => return v
  | none => throw (.noChild t children.length index)

end Marshal.Dbus
