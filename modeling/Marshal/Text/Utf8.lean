import Marshal.Text.CodePoint
/-!
# UTF-8

`encode` writes each character in its shortest form. `decode` is a machine that reads one byte at a time: between
characters it wants a lead byte, and after one it wants a number of continuation bytes, of which the first may be
confined to a smaller range, so that overlong forms, surrogates and numbers past the last code point are refused at the
first byte that rules them out.
-/
namespace Marshal.Utf8

/-- Why a byte sequence is not UTF-8, judged at its first faulty byte. -/
inductive Fault where
  /-- No character starts with this byte. -/
  | start
  /-- A character goes on, but not with this byte. -/
  | continuation
  /-- The input ends inside a character. -/
  | ended
deriving DecidableEq, Repr

/-- A continuation byte that carries the low six bits of `n`. -/
def tail (n : Nat) : UInt8 := UInt8.ofNat (0x80 + n % 0x40)

/-- The bytes of the character with code point `n`. -/
def encodePoint (n : CodePoint) : List UInt8 :=
  if n < 0x80 then [UInt8.ofNat n]
  else if n < 0x800 then [UInt8.ofNat (0xC0 + n / 0x40), tail n]
  else if n < 0x10000 then [UInt8.ofNat (0xE0 + n / 0x1000), tail (n / 0x40), tail n]
  else [UInt8.ofNat (0xF0 + n / 0x40000), tail (n / 0x1000), tail (n / 0x40), tail n]

def encode (cs : List Char) : List UInt8 := cs.flatMap (fun c => encodePoint c.toNat)

inductive State where
  | idle
  /-- Still missing are `owed + 1` continuation bytes, the next one between `low` and `high`; `bits` holds what the
  bytes so far carry. -/
  | owing (owed low high bits : Nat)
deriving DecidableEq, Repr

/-- What a byte leads to: a finished character, or a state inside one. -/
inductive Step where
  | emit (point : CodePoint)
  | goto (state : State)

def lead (b : Nat) : Except Fault Step :=
  if b < 0x80 then .ok (.emit b)
  else if b < 0xC2 then .error .start
  else if b < 0xE0 then .ok (.goto (.owing 0 0x80 0xBF (b - 0xC0)))
  else if b = 0xE0 then .ok (.goto (.owing 1 0xA0 0xBF 0))
  else if b = 0xED then .ok (.goto (.owing 1 0x80 0x9F 0xD))
  else if b < 0xF0 then .ok (.goto (.owing 1 0x80 0xBF (b - 0xE0)))
  else if b = 0xF0 then .ok (.goto (.owing 2 0x90 0xBF 0))
  else if b < 0xF4 then .ok (.goto (.owing 2 0x80 0xBF (b - 0xF0)))
  else if b = 0xF4 then .ok (.goto (.owing 2 0x80 0x8F 4))
  else .error .start

def step : State → Nat → Except Fault Step
  | .idle, b => lead b
  | .owing owed low high bits, b =>
    if low ≤ b ∧ b ≤ high then
      match owed with
      | 0 => .ok (.emit (bits * 0x40 + (b - 0x80)))
      | n + 1 => .ok (.goto (.owing n 0x80 0xBF (bits * 0x40 + (b - 0x80))))
    else .error .continuation

/-- Reads bytes from a state on; `seen` holds the characters read so far, the last one first. -/
def run : State → List Char → List UInt8 → Except Fault (List Char)
  | .idle, seen, [] => .ok seen.reverse
  | .owing .., _, [] => .error .ended
  | s, seen, b :: bs =>
    match step s b.toNat with
    | .error e => .error e
    | .ok (.emit n) => run .idle (Char.ofNat n :: seen) bs
    | .ok (.goto s') => run s' seen bs

def decode (bs : List UInt8) : Except Fault (List Char) := run .idle [] bs

end Marshal.Utf8
