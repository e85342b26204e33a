import Marshal.Text.Quoted
import Marshal.Text.Utf8
import Marshal.Ty.Form
import Marshal.Signature.Parser
import Marshal.Value.Plain
/-!
# Errors

Every way in which a type, a value, an encoding or a decoding can fail, as its cause with the facts that the message
tells. They come in families: `Mismatch` is data that does not fit its type, `DecodeError` is input that is not valid,
and `Error` is all of them. `message` is the only place where they are worded, and `kind` sorts them for a caller who
only wants to know what sort of failure it was.

A message can show any number, however many digits it has; a runtime that refuses to print the longest ones is accounted
for in `Error.told` and nowhere else. How deep calls can nest is not limited here at all.
-/
namespace Marshal

-- Powers are those of the core library, whatever else is in scope.
attribute [local instance (high)] instPowNat

/-- Plain data, or a value about to be written, that does not match its type. -/
inductive Mismatch where
  | notInteger (kind : IntKind) (got : PlainKind)
  | outOfRange (kind : IntKind) (number : Int)
  | notBoolean (got : PlainKind)
  | notFloat (got : PlainKind)
  | notText (kind : TextKind) (got : PlainKind)
  | nulInside (kind : TextKind)
  | surrogateInside (kind : TextKind)
  | invalidPath (content : String)
  | invalidSignature (content : String)
  | notSequence (ty : Ty) (got : PlainKind)
  | notTyped (expected : Ty) (got : PlainKind)
  | otherType (expected got : Ty)
  | arity (ty : Ty) (expected got : Nat)
  | entryArity (got : Nat)
  | variantNotTyped (got : PlainKind)
  | entryInVariant
  | noInference (got : PlainKind)
  | signatureUnfit (content : String) (cause : SignatureError)
  | doesNotFit (number width : Int)
  | signatureTooLong
deriving Repr

inductive DecodeError where
  | noByte
  | underrun (need : Int) (left : Nat)
  | arrayUnderrun (length left : Nat)
  | memberUnderrun (index stop size : Nat)
  | structTooShort (expected size : Nat)
  | trailing (count : Nat)
  | structTooLong (expected size : Nat)
  | arrayOverLimit (length : Nat) (limit : Int)
  | arrayMisfit (position expected : Int)
  | notMultiple (size element : Nat)
  | invalidBoolean (number : Int)
  | invalidUtf8 (fault : Utf8.Fault)
  | stringNotFollowed
  | stringNotEnded
  | maybeNotEnded
  | signatureTooLong
  | variantSignatureTooLong
  | tableTooLarge (count size : Nat)
  | offsetOutside (position : Int)
  | memberOutside (index start stop table : Nat)
  | membersMisfit (position table : Nat)
  | tableOutside (start size : Nat)
  | elementOutside (index start stop table : Nat)
  | nulInside
  | invalidPath (content : String)
  | tooDeep (limit : Int)
  | noSeparator
  | invalidSignature (cause : SignatureError)
  | variantSignature (content : String) (cause : SignatureError)
  | variantSignatureBytes (content : List UInt8) (cause : SignatureError)
  | variantSignatureNotAscii (content : List UInt8) (byte : UInt8) (position : Nat)
deriving Repr

inductive Enumeration where
  | typeCode
  | wireFormat
  | byteOrder
deriving DecidableEq, Repr

inductive Error where
  | form (cause : FormError)
  | signature (cause : SignatureError)
  | signatureNotText (got : PlainKind)
  /-- A maybe type met in D-Bus, which has none. -/
  | maybeUnsupported
  | notIndexable (ty : Ty)
  | noMembers (ty : Ty)
  | mismatch (cause : Mismatch)
  | decode (cause : DecodeError)
  | integerTooLarge
  | offsetTooLarge
  | valueTooDeep (limit : Int)
  | arrayTooLong (length : Nat) (limit : Int)
  | outputOverCap (cap : Int)
  | inputOverCap (cap : Int)
  | noChild (ty : Ty) (count : Nat) (index : Int)
  | noMember (ty : Ty) (count : Nat) (index : Int)
  | noStructMember (count : Nat) (index : Int)
  | noElement (count : Nat) (index : Int)
  | outsideWritten
  | notByte
  | negativeCount
  | negativeWidth
  /-- An offset below zero, which has no bytes without a sign. -/
  | offsetNegative
  /-- A remainder modulo zero, which an alignment or an element size of zero would take. -/
  | moduloZero
  /-- The greatest alignment of no members. -/
  | noAlignments
  | notMarker (marker : Int)
  | codePoint (fault : CodePointFault)
  | notMember (enumeration : Enumeration) (text : Text)
  /-- Surrogates from a position on, which cannot be written as UTF-8. -/
  | surrogates (first : CodePoint) (position count : Nat)
  /-- Data that cannot be the key of a mapping. -/
  | notKey (got : PlainKind)
  | noLength (got : PlainKind)
  /-- Data that cannot be searched for a pattern of characters. -/
  | notSearchable (got : PlainKind)
  /-- An error of the data's own, raised while it was walked. -/
  | unwalkable (what : Unwalkable)
  /-- A message that would have to show a number with more digits than are printed. -/
  | numberTooLong (limit : Nat)
  /-- Data of a kind that a step does not take; nothing more is said of it. -/
  | wrongKind
deriving Repr

/-! ## Wording -/

namespace PlainKind

def name : PlainKind → String
  | .none => "NoneType"
  | .boolean => "bool"
  | .integer => "int"
  | .float => "float"
  | .text => "str"
  | .bytes .constant => "bytes"
  | .bytes .mutable => "bytearray"
  | .bytes .view => "memoryview"
  | .sequence .list => "list"
  | .sequence .tuple => "tuple"
  | .sequence .stream => "generator"
  | .mapping => "dict"
  | .typed => "Value"
  | .object => "object"

end PlainKind

def IntKind.name : IntKind → String
  | .byte => "BYTE"
  | .int16 => "INT16"
  | .uint16 => "UINT16"
  | .int32 => "INT32"
  | .uint32 => "UINT32"
  | .int64 => "INT64"
  | .uint64 => "UINT64"
  | .unixFd => "UNIX_FD"

def TextKind.name : TextKind → String
  | .string => "STRING"
  | .objectPath => "OBJECT_PATH"
  | .signature => "SIGNATURE"

def Basic.name : Basic → String
  | .int k => k.name
  | .boolean => "BOOLEAN"
  | .double => "DOUBLE"
  | .text k => k.name

def Ty.quoted (t : Ty) : String := Quoted.text t.signature

def FormError.message : FormError → String
  | .arraysTooDeep => s!"more than {Limits.arrayDepth} nested arrays"
  | .structsTooDeep => s!"more than {Limits.structDepth} nested structs"
  | .emptyStruct => "structs must have at least one member"
  | .entryAsMember => "dict entries can only be array elements, not a struct member"
  | .entryAsEntryValue => "dict entries can only be array elements, not a dict entry value"
  | .entryInMaybe => "dict entries can only be array elements, not a maybe value"
  | .keyNotBasic key => s!"dict entry keys must be basic types, not {key.quoted}"

def Malformation.message : Malformation → String
  | .unexpectedEnd => "unexpected end of signature"
  | .tooNested limit => s!"nesting deeper than {limit} containers"
  | .arraysTooDeep => s!"more than {Limits.arrayDepth} nested arrays"
  | .structsTooDeep => s!"more than {Limits.structDepth} nested structs"
  | .emptyStruct => "empty struct"
  | .strayEntry => "dict entry outside of an array"
  | .keyNotBasic key => s!"dict entry key must be a basic type, not {key.quoted}"
  | .entryNotClosed => "dict entry must have exactly one key and one value"
  | .unknownCode code => s!"unrecognized type code {Quoted.text [code]}"
  | .trailing => "trailing characters after a complete type"

def SignatureError.message : SignatureError → String
  | .tooLong => s!"signature is longer than {Limits.signatureLength} characters"
  | .malformed text position fault => s!"{Quoted.text text} at position {position}: {fault.message}"
  | .maybeUnsupported text => s!"{Quoted.text text}: maybe types are not supported by the D-Bus format"

def Utf8.Fault.message : Utf8.Fault → String
  | .start => "invalid start byte"
  | .continuation => "invalid continuation byte"
  | .ended => "unexpected end of data"

def Mismatch.message : Mismatch → String
  | .notInteger kind got => s!"{kind.name} expects an int, got {got.name}"
  | .outOfRange kind number => s!"{number} is out of range for {kind.name}"
  | .notBoolean got => s!"BOOLEAN expects a bool, got {got.name}"
  | .notFloat got => s!"DOUBLE expects a float, got {got.name}"
  | .notText kind got => s!"{kind.name} expects a str, got {got.name}"
  | .nulInside kind => s!"{kind.name} cannot contain NUL characters"
  | .surrogateInside kind => s!"{kind.name} is not encodable as utf-8: surrogates not allowed"
  | .invalidPath content => s!"{Quoted.string content} is not a valid object path"
  | .invalidSignature content => s!"{Quoted.string content} is not a valid signature"
  | .notSequence ty got => s!"{ty.quoted} expects a sequence, got {got.name}"
  | .notTyped expected got => s!"expected a Value of type {expected.quoted}, got {got.name}"
  | .otherType expected got => s!"expected a value of type {expected.quoted}, got {got.quoted}"
  | .arity ty expected got => s!"{ty.quoted} has {expected} members, got {got}"
  | .entryArity got => s!"dict entries are (key, value) pairs, got {got} items"
  | .variantNotTyped got => s!"a variant holds a Value, got {got.name}"
  | .entryInVariant => "a variant cannot hold a bare dict entry"
  | .noInference got => s!"cannot infer the type of {got.name}, wrap it in a Value"
  | .signatureUnfit content cause => s!"{Quoted.string content} is not a valid D-Bus signature: {cause.message}"
  | .doesNotFit number width => s!"{number} does not fit in {width} bytes"
  | .signatureTooLong => s!"signature is longer than {Limits.signatureLength} characters"

def DecodeError.message : DecodeError → String
  | .noByte => "not enough bytes to read"
  | .underrun need left => s!"not enough bytes to read: need {need}, have {left}"
  | .arrayUnderrun length left => s!"array length {length} is larger than the {left} bytes left"
  | .memberUnderrun index stop size =>
    s!"struct member {index} ends at {stop}, beyond the {size} bytes available"
  | .structTooShort expected size | .structTooLong expected size =>
    s!"fixed-size struct takes {expected} bytes, got {size}"
  | .trailing count => s!"{count} bytes of trailing data"
  | .arrayOverLimit length limit => s!"array length {length} is larger than the maximum {limit}"
  | .arrayMisfit position expected => s!"array elements end at {position}, expected {expected}"
  | .notMultiple size element => s!"{size} bytes is not a multiple of the element size {element}"
  | .invalidBoolean number => s!"{number} is not a valid boolean"
  | .invalidUtf8 fault => s!"string is not valid utf-8: {fault.message}"
  | .stringNotFollowed => "string is not followed by a NUL byte"
  | .stringNotEnded => "string does not end with a NUL byte"
  | .maybeNotEnded => "maybe value does not end with a zero byte"
  | .signatureTooLong => s!"signature is longer than {Limits.signatureLength} characters"
  | .variantSignatureTooLong => s!"variant signature is longer than {Limits.signatureLength} characters"
  | .tableTooLarge count size => s!"{count} framing offsets do not fit in {size} bytes"
  | .offsetOutside position => s!"framing offset at {position} is outside of the container"
  | .memberOutside index start stop table =>
    s!"struct member {index} spans [{start}, {stop}), outside of [0, {table})"
  | .membersMisfit position table => s!"struct members end at {position}, the framing offsets start at {table}"
  | .tableOutside start size => s!"array framing offsets start at {start}, the array takes {size} bytes"
  | .elementOutside index start stop table =>
    s!"array element {index} spans [{start}, {stop}), outside of [0, {table})"
  | .nulInside => "string contains an embedded NUL byte"
  | .invalidPath content => s!"{Quoted.string content} is not a valid object path"
  | .tooDeep limit => s!"input is nested deeper than {limit} containers"
  | .noSeparator => "variant has no separator between the value and its signature"
  | .invalidSignature cause => s!"invalid signature value: {cause.message}"
  | .variantSignature content cause => s!"invalid variant signature {Quoted.string content}: {cause.message}"
  | .variantSignatureBytes content cause => s!"invalid variant signature {Quoted.bytes content}: {cause.message}"
  | .variantSignatureNotAscii content byte position =>
    let digits := String.ofList (Quoted.hexDigits 2 byte.toNat)
    s!"invalid variant signature {Quoted.bytes content}: 'ascii' codec can't decode byte 0x{digits} in position " ++
      s!"{position}: ordinal not in range(128)"

def Enumeration.name : Enumeration → String
  | .typeCode => "TypeCode"
  | .wireFormat => "WireFormat"
  | .byteOrder => "ByteOrder"

def CodePointFault.message : CodePointFault → String
  | .outOfRange => "chr() arg not in range(0x110000)"
  | .tooLarge => "Python int too large to convert to C int"

/-- A number in hexadecimal with its sign, in at least four characters. -/
def markerText (n : Int) : String :=
  if n < 0 then "-0x" ++ String.ofList (Quoted.hexDigits 1 n.natAbs)
  else "0x" ++ String.ofList (Quoted.hexDigits 2 n.natAbs)

def Error.message : Error → String
  | .form cause => cause.message
  | .signature cause => cause.message
  | .signatureNotText got => s!"signature must be a str, not {got.name}"
  | .maybeUnsupported => "maybe types are not supported by the D-Bus format"
  | .notIndexable ty => s!"{ty.quoted} is not an array, struct or dict entry"
  | .noMembers ty => s!"{ty.quoted} is not a struct or dict entry"
  | .mismatch cause => cause.message
  | .decode cause => cause.message
  | .integerTooLarge => "int too large to convert to float"
  | .offsetTooLarge => "int too big to convert"
  | .valueTooDeep limit => s!"value is nested deeper than {limit} containers"
  | .arrayTooLong length limit => s!"array takes {length} bytes, the maximum is {limit}"
  | .outputOverCap cap => s!"output would be longer than {cap} bytes"
  | .inputOverCap cap => s!"input is longer than {cap} bytes"
  | .noChild ty count index => s!"{ty.quoted} has {count} children, index {index} is out of range"
  | .noMember ty count index => s!"{ty.quoted} has {count} members, index {index} is out of range"
  | .noStructMember count index => s!"struct has {count} members, index {index} is out of range"
  | .noElement count index => s!"array has {count} elements, index {index} is out of range"
  | .outsideWritten => "cannot write past the end of the written data"
  | .notByte => "byte must be in range(0, 256)"
  | .negativeCount => "value cannot be negative"
  | .negativeWidth => "length argument must be non-negative"
  | .offsetNegative => "can't convert negative int to unsigned"
  | .moduloZero => "integer modulo by zero"
  | .noAlignments => "max() arg is an empty sequence"
  | .notMarker marker => s!"{markerText marker} is not a valid byte order marker"
  | .codePoint fault => fault.message
  | .notMember enumeration text => s!"{Quoted.text text} is not a valid {enumeration.name}"
  | .surrogates first position count =>
    if count ≤ 1 then
      s!"'utf-8' codec can't encode character {Quoted.text [first]} in position {position}: surrogates not allowed"
    else
      s!"'utf-8' codec can't encode characters in position {position}-{position + count - 1}: surrogates not allowed"
  | .notKey got => s!"unhashable type: '{got.name}'"
  | .noLength got => s!"object of type '{got.name}' has no len()"
  | .notSearchable (.bytes _) => "cannot use a string pattern on a bytes-like object"
  | .notSearchable got => s!"expected string or bytes-like object, got '{got.name}'"
  | .numberTooLong limit =>
    s!"Exceeds the limit ({limit} digits) for integer string conversion" ++
      "; use sys.set_int_max_str_digits() to increase the limit"
  | .unwalkable _ | .wrongKind => ""

/-- The number that a message shows of the data. -/
def Mismatch.number? : Mismatch → Option Int
  | .outOfRange _ number | .doesNotFit number _ => some number
  | _ => none

/-- What becomes of an error where numbers of more than `limit` digits are not printed: to word a mismatch that shows
such a number is an error itself. -/
def Error.told (limit : Option Nat) (e : Error) : Error :=
  match limit, e with
  | some limit, .mismatch m =>
    match m.number? with
    | some number => if 10 ^ limit ≤ number.natAbs then .numberTooLong limit else e
    | none => e
  | _, e => e

/-! ## Sorting -/

inductive DecodeErrorKind where
  | underrun
  | trailing
  | arrayLength
  | boolean
  | utf8
  | terminator
  | signatureLength
  | offsetTable
  | value
  | depth
  | signature
deriving DecidableEq, Repr

def DecodeError.kind : DecodeError → DecodeErrorKind
  | .noByte | .underrun .. | .arrayUnderrun .. | .memberUnderrun .. | .structTooShort .. => .underrun
  | .trailing _ | .structTooLong .. => .trailing
  | .arrayOverLimit .. | .arrayMisfit .. | .notMultiple .. => .arrayLength
  | .invalidBoolean _ => .boolean
  | .invalidUtf8 _ => .utf8
  | .stringNotFollowed | .stringNotEnded | .maybeNotEnded => .terminator
  | .signatureTooLong | .variantSignatureTooLong => .signatureLength
  | .tableTooLarge .. | .offsetOutside _ | .memberOutside .. | .membersMisfit .. | .tableOutside ..
  | .elementOutside .. => .offsetTable
  | .nulInside | .invalidPath _ => .value
  | .tooDeep _ => .depth
  | .noSeparator | .invalidSignature _ | .variantSignature .. | .variantSignatureBytes ..
  | .variantSignatureNotAscii .. => .signature

inductive ErrorKind where
  | malformedSignature
  /-- A type that exists but not in the chosen format, or not for the chosen operation. -/
  | unsupportedType
  | mismatch
  | decode (kind : DecodeErrorKind)
  | valueDepth
  | arrayLength
  | byteCap
  | index
  | overflow
  /-- An argument of another type, or with a value that is not allowed. -/
  | argumentType
  | argumentValue
  | textEncoding
  | division
  /-- An error of the data that was given, which could be any. -/
  | foreign
  | assertion
deriving DecidableEq, Repr

def SignatureError.kind : SignatureError → ErrorKind
  | .tooLong | .malformed .. => .malformedSignature
  | .maybeUnsupported _ => .unsupportedType

def CodePointFault.kind : CodePointFault → ErrorKind
  | .outOfRange => .argumentValue
  | .tooLarge => .overflow

def Error.kind : Error → ErrorKind
  | .form _ => .malformedSignature
  | .signature cause => cause.kind
  | .signatureNotText _ | .noMembers _ | .notKey _ | .noLength _ | .notSearchable _ => .argumentType
  | .maybeUnsupported | .notIndexable _ => .unsupportedType
  | .mismatch _ => .mismatch
  | .decode cause => .decode cause.kind
  | .integerTooLarge | .offsetTooLarge | .offsetNegative => .overflow
  | .valueTooDeep _ => .valueDepth
  | .arrayTooLong .. => .arrayLength
  | .outputOverCap _ | .inputOverCap _ => .byteCap
  | .noChild .. | .noMember .. | .noStructMember .. | .noElement .. | .outsideWritten => .index
  | .notByte | .negativeCount | .negativeWidth | .noAlignments | .notMarker _ | .notMember ..
  | .numberTooLong _ => .argumentValue
  | .codePoint fault => fault.kind
  | .moduloZero => .division
  | .surrogates .. => .textEncoding
  | .unwalkable _ => .foreign
  | .wrongKind => .assertion

end Marshal
