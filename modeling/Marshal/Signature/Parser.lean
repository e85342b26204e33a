import Marshal.Limits
import Marshal.Signature.Symbol
/-!
# Reading signatures

A recursive descent over the symbols of a text. Nesting is tracked on the way down, so that a hostile text is refused at
the first symbol that goes too deep; the first parameter of `readType` bounds the number of symbols left, and `parse`
sets it to the length of the text.
-/
namespace Marshal

inductive WireFormat where
  | dbus
  | gvariant
deriving DecidableEq, Repr

namespace WireFormat

def name : WireFormat → String
  | .dbus => "dbus"
  | .gvariant => "gvariant"

def ofName? (s : String) : Option WireFormat := [dbus, gvariant].find? (fun f => f.name == s)

end WireFormat

inductive Malformation where
  | unexpectedEnd
  | tooNested (limit : Int)
  | arraysTooDeep
  | structsTooDeep
  | emptyStruct
  | strayEntry
  | keyNotBasic (key : Ty)
  | entryNotClosed
  | unknownCode (code : CodePoint)
  | trailing
deriving DecidableEq, Repr

inductive SignatureError where
  | tooLong
  | malformed (text : Text) (position : Nat) (fault : Malformation)
  /-- A maybe type in a signature for D-Bus, which has none. -/
  | maybeUnsupported (text : Text)
deriving DecidableEq, Repr

namespace Signature

structure Reading where
  /-- The format whose types are accepted; every type when none is given. -/
  format : Option WireFormat := none
  maxDepth : Int := Limits.depth
deriving DecidableEq, Repr

structure Cursor where
  position : Nat
  rest : Text

structure Surroundings where
  depth : Nat := 0
  arrays : Nat := 0
  structs : Nat := 0
  inArray : Bool := false

/-- A fault at a position, or a maybe type where there can be none. -/
inductive Refusal where
  | fault (position : Nat) (what : Malformation)
  | maybeUnsupported

abbrev Reader (α : Type) := Cursor → Except Refusal (α × Cursor)

/-- The next character, which stays where it is. -/
def peek (c : Cursor) : Except Refusal CodePoint :=
  match c.rest with
  | [] => .error (.fault c.position .unexpectedEnd)
  | code :: _ => .ok code

def skip (c : Cursor) : Cursor := ⟨c.position + 1, c.rest.tail⟩

/-- Types up to a closing bracket, which is left; at most `n` of them. -/
def readFields (readType : Reader Ty) : Nat → Reader (List Ty)
  | n, c => do
    let code ← peek c
    if code = Symbol.closeStruct.code then return ([], c)
    match n with
    | 0 => .error (.fault c.position .unexpectedEnd)
    | n + 1 =>
      let (t, c) ← readType c
      let (ts, c) ← readFields readType n c
      return (t :: ts, c)

/-- One complete type from a text of at most `n` symbols. -/
def readType (r : Reading) : Nat → Surroundings → Reader Ty
  | 0, _, c => .error (.fault c.position .unexpectedEnd)
  | n + 1, s, c => do
    let code ← peek c
    let next := skip c
    let opens : Except Refusal Unit :=
      if r.maxDepth ≤ s.depth then .error (.fault c.position (.tooNested r.maxDepth)) else .ok ()
    match Symbol.ofCode? code with
    | some (.basic b) => return (.basic b, next)
    | some .variant => return (.variant, next)
    | some .array =>
      opens
      if Limits.arrayDepth ≤ s.arrays then .error (.fault next.position .arraysTooDeep)
      let (t, c) ← readType r n ⟨s.depth + 1, s.arrays + 1, s.structs, true⟩ next
      return (.array t, c)
    | some .maybe =>
      opens
      if r.format = some .dbus then .error .maybeUnsupported
      let (t, c) ← readType r n ⟨s.depth + 1, s.arrays, s.structs, false⟩ next
      return (.maybe t, c)
    | some .openStruct =>
      opens
      if Limits.structDepth ≤ s.structs then .error (.fault next.position .structsTooDeep)
      let (ts, c) ← readFields (readType r n ⟨s.depth + 1, s.arrays, s.structs + 1, false⟩) n next
      if ts.isEmpty then .error (.fault c.position .emptyStruct)
      return (.struct ts, skip c)
    | some .openEntry =>
      opens
      if !s.inArray then .error (.fault next.position .strayEntry)
      if Limits.structDepth ≤ s.structs then .error (.fault next.position .structsTooDeep)
      let inside : Surroundings := ⟨s.depth + 1, s.arrays, s.structs + 1, false⟩
      let (k, c) ← readType r n inside next
      match k with
      | .basic k =>
        let (t, c) ← readType r n inside c
        if (← peek c) ≠ Symbol.closeEntry.code then .error (.fault c.position .entryNotClosed)
        return (.entry k t, skip c)
      | k => .error (.fault c.position (.keyNotBasic k))
    | some .closeStruct | some .closeEntry | none => .error (.fault c.position (.unknownCode code))

/-- Complete types up to the end of the text, at most `n` of them. -/
def readTypes (readType : Reader Ty) : Nat → Cursor → Except Refusal (List Ty)
  | _, ⟨_, []⟩ => .ok []
  | 0, c => .error (.fault c.position .trailing)
  | n + 1, c => do
    let (t, c) ← readType c
    return t :: (← readTypes readType n c)

def Refusal.about (text : Text) : Refusal → SignatureError
  | .fault position what => .malformed text position what
  | .maybeUnsupported => .maybeUnsupported text

def parse (r : Reading) (text : Text) : Except SignatureError Ty :=
  if Limits.signatureLength < text.length then .error .tooLong
  else
    match readType r text.length {} ⟨0, text⟩ with
    | .error e => .error (e.about text)
    | .ok (t, ⟨_, []⟩) => .ok t
    | .ok (_, c) => .error (.malformed text c.position .trailing)

def parseAll (r : Reading) (text : Text) : Except SignatureError (List Ty) :=
  if Limits.signatureLength < text.length then .error .tooLong
  else (readTypes (readType r text.length {}) text.length ⟨0, text⟩).mapError (·.about text)

def isValid (text : Text) : Bool := (parseAll {} text).isOk

end Signature

end Marshal
