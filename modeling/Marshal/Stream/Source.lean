import Marshal.Error
import Marshal.Stream.Cap
/-!
# Reading

A source is what is left to read and the position of its first byte, counted from the start of the outermost value; the
position of a window of a larger input need not be zero. `Get` is a step that reads, and when it fails it leaves the
source that it had reached. Reading is charged to the caps before it is tried, peeking is not.
-/
namespace Marshal

structure Source where
  position : Int := 0
  rest : List UInt8
  /-- The cap put on last comes first. -/
  caps : List Cap := []

abbrev Get := EStateM Error Source

namespace Get

def fail (e : DecodeError) : Get α := throw (.decode e)

def ofExcept : Except Error α → Get α
  | .ok a => pure a
  | .error e => throw e

def position : Get Int := fun s => .ok s.position s

def remaining : Get Nat := fun s => .ok s.rest.length s

def has (n : Nat) : Get Bool := fun s => .ok ((s.rest.take n).length == n) s

def isEmpty : Get Bool := fun s => .ok s.rest.isEmpty s

def wrap (limit : Option Int) : Get Unit := fun s =>
  match limit with
  | none => .ok () s
  | some n => .ok () { s with caps := Cap.new n :: s.caps }

def charge (n : Int) : Get Unit := fun ⟨position, rest, caps⟩ =>
  match Cap.chargeAll n caps with
  | (none, caps) => .ok () ⟨position, rest, caps⟩
  | (some limit, caps) => .error (.inputOverCap limit) ⟨position, rest, caps⟩

def peekByte : Get UInt8 := fun s =>
  match s.rest with
  | [] => .error (.decode .noByte) s
  | b :: _ => .ok b s

/-- The next `n` bytes. Fewer when fewer are left, unless they have to be `exact`. -/
def peekBytes (n : Int) (exact : Bool) : Get (List UInt8) := fun s =>
  if n < 0 then .error .negativeCount s
  else
    let bs := s.rest.take n.toNat
    if exact && bs.length < n.toNat then .error (.decode (.underrun n s.rest.length)) s else .ok bs s

def advance (n : Nat) : Get Unit := fun ⟨position, rest, caps⟩ => .ok () ⟨position + n, rest.drop n, caps⟩

def takeByte : Get UInt8 := do
  let b ← peekByte
  advance 1
  return b

/-- Reads bytes, uncharged. -/
def takeBytes (n : Int) (exact : Bool) : Get (List UInt8) := do
  let bs ← peekBytes n exact
  advance bs.length
  return bs

def readByte : Get UInt8 := do
  charge 1
  takeByte

def readBytes (n : Int) (exact : Bool) : Get (List UInt8) := do
  charge n
  takeBytes n exact

/-- Takes a cap's place for a step behind it, and gives it a new remainder afterwards. -/
def behindCap (c : Cap) (get : Get α) (left : α → Int) : Get α := fun s =>
  match get s with
  | .ok a s => .ok a { s with caps := ⟨c.limit, left a⟩ :: s.caps }
  | .error e s => .error e { s with caps := c :: s.caps }

/-- Reads all that is left. Under a cap that is at most what the cap has left, which is charged in full to the caps
behind it; more input than that is an error, and then the cap itself is not charged. -/
def readAll : Get (List UInt8) := fun ⟨position, rest, caps⟩ =>
  match caps with
  | [] => .ok rest ⟨position + rest.length, [], []⟩
  | c :: cs =>
    let get : Get (List UInt8) := do
      let bs ← readBytes c.left false
      if ← isEmpty then return bs else throw (.inputOverCap c.limit)
    behindCap c get (fun bs => c.left - bs.length) ⟨position, rest, cs⟩

def finish : Get Unit := fun s =>
  if s.rest.isEmpty then .ok () s else .error (.decode (.trailing s.rest.length)) s

/-- What a step reads from the whole of an input. -/
def run (get : Get α) (source : Source) : Except Error α :=
  match (do let a ← get; finish; return a : Get α) source with
  | .ok a _ => .ok a
  | .error e _ => .error e

end Get

end Marshal
