import Marshal.Error
import Marshal.Stream.Cap
/-!
# Writing

A sink is everything written so far, with the caps that stand before it. `Put` is a step that writes; when it fails it
still leaves the sink that it had reached, since what was written before the failure stays, and so do the charges to the
caps. Bytes already written can be overwritten in place, which is no new output and is charged to no cap.
-/
namespace Marshal

structure Sink where
  bytes : Array UInt8 := #[]
  /-- The cap put on last comes first. -/
  caps : List Cap := []

abbrev Put := EStateM Error Sink

namespace Put

def position : Put Nat := fun s => .ok s.bytes.size s

/-- Puts a cap before the sink, if one is given. -/
def wrap (limit : Option Int) : Put Unit := fun s =>
  match limit with
  | none => .ok () s
  | some n => .ok () { s with caps := Cap.new n :: s.caps }

def charge (n : Nat) : Put Unit := fun ⟨bytes, caps⟩ =>
  match Cap.chargeAll n caps with
  | (none, caps) => .ok () ⟨bytes, caps⟩
  | (some limit, caps) => .error (.outputOverCap limit) ⟨bytes, caps⟩

/-- Appends bytes without a charge. -/
def append (bs : List UInt8) : Put Unit := fun ⟨bytes, caps⟩ => .ok () ⟨bytes ++ bs, caps⟩

def writeBytes (bs : List UInt8) : Put Unit := do
  charge bs.length
  append bs

/-- Writes one byte, given as a number; the charge comes before the check that it is a byte. -/
def writeByte (n : Int) : Put Unit := do
  charge 1
  if 0 ≤ n ∧ n < 256 then append [UInt8.ofNat n.toNat] else throw .notByte

def setFrom (bytes : Array UInt8) (i : Nat) : List UInt8 → Array UInt8
  | [] => bytes
  | b :: bs => setFrom (bytes.setIfInBounds i b) (i + 1) bs

def overwrite (position : Int) (bs : List UInt8) : Put Unit := fun ⟨bytes, caps⟩ =>
  if position < 0 ∨ (bytes.size : Int) < position + bs.length then .error .outsideWritten ⟨bytes, caps⟩
  else .ok () ⟨setFrom bytes position.toNat bs, caps⟩

def forEach (put : α → Put Unit) : List α → Put Unit
  | [] => pure ()
  | x :: xs => do
    put x
    forEach put xs

/-- Everything a step writes onto an empty sink behind an optional cap. -/
def run (put : Put Unit) (cap : Option Int) : Except Error (Array UInt8) :=
  match (do wrap cap; put : Put Unit) {} with
  | .ok _ s => .ok s.bytes
  | .error e _ => .error e

end Put

end Marshal
