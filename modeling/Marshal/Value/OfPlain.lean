import Marshal.Error
import Marshal.Wire.Integer
import Marshal.Text.ObjectPath
/-!
# Values from plain data

`Value.ofPlain` builds a value of a given type out of plain data, `Value.ofParts` out of children that are values
already, and `Value.infer` finds the type where the data implies one. All three check what they are given, so that what
they build is well-formed, as `Value.isWellFormed` has it; the first fault found, from the outside in and from left to
right, is the answer.
-/
namespace Marshal

namespace Scalar

def mismatch (m : Mismatch) : Except Error α := .error (.mismatch m)

def checkText (kind : TextKind) (t : Text) : Except Error String :=
  if t.contains 0 then mismatch (.nulInside kind)
  else
    match t.toString? with
    | none => mismatch (.surrogateInside kind)
    | some s =>
      match kind with
      | .string => .ok s
      | .objectPath => if ObjectPath.isValid t then .ok s else mismatch (.invalidPath s)
      | .signature => if Signature.isValid t then .ok s else mismatch (.invalidSignature s)

/-- A scalar of a type; an integer is taken for a double as well. -/
def ofPlain : Basic → Plain → Except Error Scalar
  | .int k, .integer n => if Integer.Fits k.width k.isSigned n then .ok (.int k n) else mismatch (.outOfRange k n)
  | .int k, p => mismatch (.notInteger k p.kind)
  | .boolean, .boolean b => .ok (.boolean b)
  | .boolean, p => mismatch (.notBoolean p.kind)
  | .double, .float x => .ok (.double x)
  | .double, .integer n =>
    match Binary64.ofInt? n with
    | some x => .ok (.double x)
    | none => .error .integerTooLarge
  | .double, p => mismatch (.notFloat p.kind)
  | .text k, .text t => (checkText k t).map (.text k)
  | .text k, p => mismatch (.notText k p.kind)

end Scalar

namespace Plain

/-- The items of data that can be walked. A view of bytes gives numbers; other bytes, text and mappings are no
sequences. -/
def items? : Plain → Option (List Plain)
  | .sequence _ ps | .cells _ ps => some ps
  | .bytes .view bs => some (bs.map (fun b => .integer b.toNat))
  | _ => Option.none

/-- The bytes of what holds bytes, whether or not they can be walked. -/
def bytes? : Plain → Option (List UInt8)
  | .bytes _ bs | .cells bs _ => some bs
  | .unwalkable (.grid rows) => some rows.flatten
  | _ => Option.none

end Plain

namespace Value

def ofByte (b : UInt8) : Value := .scalar (.int .byte b.toNat)

def mismatch (m : Mismatch) : Except Error α := .error (.mismatch m)

def itemsFor (t : Ty) (p : Plain) : Except Error (List Plain) :=
  match p with
  | .unwalkable what => .error (.unwalkable what)
  | p =>
    match p.items? with
    | some ps => .ok ps
    | none => mismatch (.notSequence t p.kind)

/-- The items of an array whose elements have a type. A mapping counts as its entries where those are wanted. -/
def arrayItems (element : Ty) (p : Plain) : Except Error (List Plain) :=
  match p with
  | .mapping es =>
    if element.isEntry then .ok (es.map (fun e => .sequence .tuple [e.1, e.2])) else itemsFor (.array element) p
  | p => itemsFor (.array element) p

def pairFor (t : Ty) (p : Plain) : Except Error (Plain × Plain) := do
  match ← itemsFor t p with
  | [k, v] => return (k, v)
  | ps => mismatch (.entryArity ps.length)

def membersFor (fields : List Ty) (p : Plain) : Except Error (List Plain) := do
  let ps ← itemsFor (.struct fields) p
  if ps.length ≠ fields.length then mismatch (.arity (.struct fields) fields.length ps.length)
  return ps

def wrap (v : Value) : Except Error Value := if v.ty.isEntry then mismatch .entryInVariant else .ok (.variant v)

def infer : Plain → Except Error Value
  | .typed v => .ok v
  | .boolean b => .ok (.scalar (.boolean b))
  | .integer n => (Scalar.ofPlain (.int .int64) (.integer n)).map .scalar
  | .float x => .ok (.scalar (.double x))
  | .text t => (Scalar.ofPlain (.text .string) (.text t)).map .scalar
  | .bytes .constant bs | .bytes .mutable bs => .ok (.array .byte (bs.map ofByte))
  | p => mismatch (.noInference p.kind)

/-- Data that is a value already is taken as it is when it has the type, and otherwise only where `wraps` it. -/
def typedOr (t : Ty) (p : Plain) (wraps : Bool) (build : Except Error Value) : Except Error Value :=
  match p with
  | .typed v => if v.ty = t then .ok v else if wraps then build else mismatch (.otherType t v.ty)
  | _ => build

def keyOfPlain : Basic → Plain → Except Error Scalar
  | k, .typed (.scalar s) => if s.basic = k then .ok s else mismatch (.otherType (.basic k) (.basic s.basic))
  | k, .typed v => mismatch (.otherType (.basic k) v.ty)
  | k, p => Scalar.ofPlain k p

mutual
/-- A value of a type from plain data, in which values of the right types may stand. -/
def ofPlain : Ty → Plain → Except Error Value
  | .basic b, p => typedOr (.basic b) p false do
    return .scalar (← Scalar.ofPlain b p)
  | .array t, p => typedOr (.array t) p false do
    match t, p.bytes? with
    | .basic (.int .byte), some bs => return .array t (bs.map ofByte)
    | t, _ => return .array t (← (← arrayItems t p).mapM (ofPlain t))
  | .struct ts, p => typedOr (.struct ts) p false do
    return .struct (← ofPlains ts (← membersFor ts p))
  | .entry k t, p => typedOr (.entry k t) p false do
    let (key, value) ← pairFor (.entry k t) p
    let key ← keyOfPlain k key
    return .entry key (← ofPlain t value)
  | .variant, p => typedOr .variant p true do
    wrap (← infer p)
  | .maybe t, p => typedOr (.maybe t) p true do
    match p with
    | .none => return .nothing t
    | p => return .just (← ofPlain t p)

def ofPlains : List Ty → List Plain → Except Error (List Value)
  | t :: ts, p :: ps => do
    let v ← ofPlain t p
    return v :: (← ofPlains ts ps)
  | _, _ => return []
end

/-- `ofPlain` where messages show no numbers of more than `limit` digits. -/
def convert (limit : Option Nat) (t : Ty) (p : Plain) : Except Error Value := (ofPlain t p).mapError (Error.told limit)

/-! ## From children that are values -/

/-- A child, which has to be a value of a type. -/
def child (expected : Ty) : Plain → Except Error Value
  | .typed v => if v.ty = expected then .ok v else mismatch (.otherType expected v.ty)
  | p => mismatch (.notTyped expected p.kind)

def childKey (expected : Basic) : Plain → Except Error Scalar
  | .typed (.scalar s) =>
    if s.basic = expected then .ok s else mismatch (.otherType (.basic expected) (.basic s.basic))
  | .typed v => mismatch (.otherType (.basic expected) v.ty)
  | p => mismatch (.notTyped (.basic expected) p.kind)

/-- A value of a type from its data, in which all children are values. -/
def ofParts (t : Ty) (p : Plain) : Except Error Value :=
  match t with
  | .basic b => return .scalar (← Scalar.ofPlain b p)
  | .array t => return .array t (← (← itemsFor (.array t) p).mapM (child t))
  | .struct ts => return .struct (← (ts.zip (← membersFor ts p)).mapM (fun (t, p) => child t p))
  | .entry k t => do
    let (key, value) ← pairFor (.entry k t) p
    let key ← childKey k key
    return .entry key (← child t value)
  | .variant =>
    match p with
    | .typed v => wrap v
    | p => mismatch (.variantNotTyped p.kind)
  | .maybe t =>
    match p with
    | .none => return .nothing t
    | p => return .just (← child t p)

/-! ## From a type's parts -/

def form (t : Except FormError Ty) : Except Error Ty := t.mapError .form

def arrayOf (element : Ty) (p : Plain) : Except Error Value := do
  ofPlain (← form (Ty.arrayOf element)) p

/-- An array of dict entries with keys and values of two types. -/
def mappingOf (key value : Ty) (p : Plain) : Except Error Value := do
  ofPlain (← form (Ty.arrayOf (← form (Ty.entryOf key value)))) p

def structOf (members : List Value) : Except Error Value := do
  let _ ← form (Ty.structOf (members.map ty))
  return .struct members

def entryOf (key value : Value) : Except Error Value := do
  let _ ← form (Ty.entryOf key.ty value.ty)
  match key with
  | .scalar k => return .entry k value
  | _ => .error (.form (.keyNotBasic key.ty))

/-- A variant around a value, or around what the data implies. -/
def variantOf (p : Plain) : Except Error Value := do
  wrap (← infer p)

/-- A maybe, which holds nothing when there is no data. -/
def maybeOf (inner : Ty) (p : Plain) : Except Error Value := do
  let _ ← form (Ty.maybeOf inner)
  match p with
  | .none => return .nothing inner
  | p => return .just (← ofPlain inner p)

def nothingOf (inner : Ty) : Except Error Value := do
  let _ ← form (Ty.maybeOf inner)
  return .nothing inner

end Value

end Marshal
