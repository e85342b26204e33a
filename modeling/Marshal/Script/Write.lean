import Marshal.Codec
/-!
# Scripts that write

A script runs steps on one sink, one after the other. A step that fails leaves what it had written and the charges that
it had made, and the next one goes on from there. The numbers and the data of a step are as they come from outside: a
width may be negative, and data may be of a kind that the step does not take.
-/
namespace Marshal

/-- A step. What `bytes` and `overwrite` write are strings of bytes; buffers with wider items, whose length is another
than that of their bytes, are not covered. -/
inductive WriteStep where
  | wrap (limit : Option Int)
  | byte (number : Int)
  | bytes (content : List UInt8)
  | overwrite (position : Int) (content : List UInt8)
  | int (number width : Int) (signed : Bool) (order : ByteOrder)
  | boolean (data : Plain) (width : Int) (order : ByteOrder)
  | double (bits : Binary64) (order : ByteOrder)
  | text (data : Plain) (lengthWidth : Int) (order : ByteOrder)
  | signature (data : Plain) (prefixed : Bool)
  | padding (alignment : Int)
  | offsets (offsets : List Int) (body : Int)
  | value (codec : Codec) (value : Value)

namespace WriteStep

-- Powers are those of the core library, whatever else is in scope.
attribute [local instance (high)] instPowNat

/-- What is wrong with a width for a number. No number fits a width that takes more than 64 bits itself. -/
def widthError? (number width : Int) : Option Error :=
  if width < -(2 ^ (63 : Nat)) ∨ 2 ^ (63 : Nat) ≤ width then some (.mismatch (.doesNotFit number width))
  else if width < 0 then some .negativeWidth
  else none

def putInt (number width : Int) (signed : Bool) (order : ByteOrder) : Put Unit :=
  match widthError? number width with
  | some e => throw e
  | none => Put.int ⟨width.toNat, signed, order⟩ number

def putBoolean (data : Plain) (width : Int) (order : ByteOrder) : Put Unit :=
  match data with
  | .boolean b => putInt (if b then 1 else 0) width false order
  | _ => throw .wrongKind

/-- Text after its length; that it can be written at all is checked before the width. -/
def putText (data : Plain) (lengthWidth : Int) (order : ByteOrder) : Put Unit :=
  match data with
  | .text t =>
    if t.IsScalar then
      match widthError? (Utf8.encode (t.map Char.ofNat)).length lengthWidth with
      | some e => throw e
      | none => Put.text lengthWidth.toNat order t
    else throw (Put.surrogateError t)
  | _ => throw .wrongKind

/-- A signature; how long the data is comes before what it is. -/
def putSignature (data : Plain) (prefixed : Bool) : Put Unit :=
  match data with
  | .text t => Put.signature prefixed t
  | p =>
    match p.length? with
    | none => throw (.noLength p.kind)
    | some n => throw (if Limits.signatureLength < n then .mismatch .signatureTooLong else .wrongKind)

def put : WriteStep → Put Unit
  | .wrap limit => Put.wrap limit
  | .byte n => Put.writeByte n
  | .bytes bs => Put.writeBytes bs
  | .overwrite position bs => Put.overwrite position bs
  | .int n width signed order => putInt n width signed order
  | .boolean p width order => putBoolean p width order
  | .double bits order => Put.double order bits
  | .text p lengthWidth order => putText p lengthWidth order
  | .signature p pre => putSignature p pre
  | .padding alignment => Put.align alignment
  | .offsets ns body => Framing.putOffsets ns body
  | .value c v => c.put v

end WriteStep

/-- Runs steps in turn. Gives the error of each that failed and the position after each. -/
def Put.script : List (Put Unit) → Sink → List (Option Error × Nat) × Sink
  | [], s => ([], s)
  | put :: puts, s =>
    match put s with
    | .ok _ s =>
      let (outcomes, last) := script puts s
      ((none, s.bytes.size) :: outcomes, last)
    | .error e s =>
      let (outcomes, last) := script puts s
      ((some e, s.bytes.size) :: outcomes, last)

end Marshal
