import Marshal.Text.Printable
/-!
# Quoted text

Text and byte strings as they stand in messages: between single quotes, or between double quotes when the content has
single quotes only. A backslash, the quote in use, tab, line feed and carriage return have short escapes; anything else
that is not printable is written by its number, in the shortest of three hexadecimal forms.
-/
namespace Marshal.Quoted

open Printable

def singleQuote : CodePoint := 0x27
def doubleQuote : CodePoint := 0x22
def backslash : CodePoint := 0x5C

def delimiter (t : Text) : CodePoint :=
  if t.contains singleQuote && !t.contains doubleQuote then doubleQuote else singleQuote

/-- A number as `width` lowercase hexadecimal digits. -/
def hexDigits (width n : Nat) : List Char :=
  let ds := Nat.toDigits 16 n
  List.replicate (width - ds.length) '0' ++ ds

def escaped (rest : List Char) : List Char := Char.ofNat backslash :: rest

/-- The escapes with a spelling of their own. -/
def shortEscape? (quote c : CodePoint) : Option (List Char) :=
  if c = quote ∨ c = backslash then some (escaped [Char.ofNat c])
  else if c = 9 then some (escaped ['t'])
  else if c = 10 then some (escaped ['n'])
  else if c = 13 then some (escaped ['r'])
  else none

def numericEscape (c : CodePoint) : List Char :=
  if c < 0x100 then escaped ('x' :: hexDigits 2 c)
  else if c < 0x10000 then escaped ('u' :: hexDigits 4 c)
  else escaped ('U' :: hexDigits 8 c)

def charForm (quote c : CodePoint) : List Char :=
  (shortEscape? quote c).getD (if isPrintable c then [Char.ofNat c] else numericEscape c)

/-- Bytes past ASCII are no characters, so they are always written by number. -/
def byteForm (quote c : CodePoint) : List Char :=
  (shortEscape? quote c).getD (if c < 0x80 && isPrintable c then [Char.ofNat c] else numericEscape c)

def enclose (quote : CodePoint) (body : List Char) : List Char :=
  Char.ofNat quote :: (body ++ [Char.ofNat quote])

def text (t : Text) : String :=
  let q := delimiter t
  String.ofList (enclose q (t.flatMap (charForm q)))

def string (s : String) : String := text (Text.ofString s)

/-- A byte string in quotes, marked by a leading `b`. -/
def bytes (bs : List UInt8) : String :=
  let t := bs.map UInt8.toNat
  let q := delimiter t
  String.ofList ('b' :: enclose q (t.flatMap (byteForm q)))

end Marshal.Quoted
