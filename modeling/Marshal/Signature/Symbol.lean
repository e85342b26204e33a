import Marshal.Text.CodePoint
import Marshal.Ty.Basic
/-!
# Signatures

A signature writes a type as a sequence of symbols, each one ASCII character: a letter for a basic type or a variant,
`a` and `m` before the type of an element or content, and brackets around members. `Ty.signature` is the only spelling
of a type.
-/
namespace Marshal

inductive Symbol where
  | basic (basic : Basic)
  | variant
  | array
  | maybe
  | openStruct
  | closeStruct
  | openEntry
  | closeEntry
deriving DecidableEq, Repr

namespace Symbol

def char : Symbol → Char
  | .basic (.int .byte) => 'y'
  | .basic .boolean => 'b'
  | .basic (.int .int16) => 'n'
  | .basic (.int .uint16) => 'q'
  | .basic (.int .int32) => 'i'
  | .basic (.int .uint32) => 'u'
  | .basic (.int .int64) => 'x'
  | .basic (.int .uint64) => 't'
  | .basic .double => 'd'
  | .basic (.text .string) => 's'
  | .basic (.text .objectPath) => 'o'
  | .basic (.text .signature) => 'g'
  | .basic (.int .unixFd) => 'h'
  | .variant => 'v'
  | .array => 'a'
  | .maybe => 'm'
  | .openStruct => '('
  | .closeStruct => ')'
  | .openEntry => '{'
  | .closeEntry => '}'

def code (s : Symbol) : CodePoint := s.char.toNat

def all : List Symbol :=
  [.basic (.int .byte), .basic .boolean, .basic (.int .int16), .basic (.int .uint16), .basic (.int .int32),
    .basic (.int .uint32), .basic (.int .int64), .basic (.int .uint64), .basic .double, .basic (.text .string),
    .basic (.text .objectPath), .basic (.text .signature), .basic (.int .unixFd), .variant, .array, .maybe, .openStruct,
    .closeStruct, .openEntry, .closeEntry]

def ofCode? (c : CodePoint) : Option Symbol := all.find? (fun s => s.code == c)

theorem ofCode?_code (s : Symbol) : ofCode? s.code = some s := by
  cases s with
  | basic b => cases b with
    | int k => cases k <;> decide
    | text k => cases k <;> decide
    | boolean | double => decide
  | _ => decide

theorem code_of_ofCode? {c : CodePoint} {s : Symbol} (h : ofCode? c = some s) : s.code = c := by
  simpa using List.find?_some h

end Symbol

namespace Ty

mutual
def symbols : Ty → List Symbol
  | .basic b => [.basic b]
  | .array t => .array :: symbols t
  | .struct ts => .openStruct :: (symbolsOf ts ++ [.closeStruct])
  | .entry k t => .openEntry :: .basic k :: (symbols t ++ [.closeEntry])
  | .variant => [.variant]
  | .maybe t => .maybe :: symbols t

def symbolsOf : List Ty → List Symbol
  | [] => []
  | t :: ts => symbols t ++ symbolsOf ts
end

def signature (t : Ty) : Text := t.symbols.map Symbol.code

def signatureOf (ts : List Ty) : Text := (symbolsOf ts).map Symbol.code

def signatureString (t : Ty) : String := String.ofList (t.symbols.map Symbol.char)

end Ty

end Marshal
