import Marshal.Framing.Offset
import Marshal.Ty.Layout
import Marshal.Wire.Padding
/-!
# Framed collections

The elements of a GVariant array. Elements of a fixed size are packed, and their number follows from the size of the
array. Otherwise the end of every element is in the table, in order, so that the last offset, at the very end, tells
where the table starts. An empty array takes no bytes.

`frame` reads how many elements there are, `elementWindow` locates one of them, with no look at those before it but the
end of the last.
-/
namespace Marshal.Framing

/-- Writes elements, each with its padding before it. Gives their ends, counted from `start`, after those in `ends`,
which are kept last first. -/
def putElements (put : α → Put Unit) (alignment start : Nat) : (ends : List Int) → List α → Put (List Int)
  | ends, [] => pure ends.reverse
  | ends, x :: xs => do
    Put.pad alignment
    put x
    let stop : Int ← Put.position
    putElements put alignment start ((stop - start) :: ends) xs

def putCollection (put : α → Put Unit) (l : Layout) (items : List α) : Put Unit := do
  let start ← Put.position
  let ends ← putElements put l.alignment start [] items
  let stop : Int ← Put.position
  putOffsets (if l.isFixed then [] else ends) (stop - start)

structure CollectionFrame where
  count : Nat
  offsetWidth : Nat
  tableStart : Nat
deriving DecidableEq, Repr

/-- The frame of a collection that takes the whole of `data`. -/
def frame (data : Array UInt8) (fixedSize : Option Nat) : Except Error CollectionFrame :=
  if data.size = 0 then .ok ⟨0, 0, 0⟩
  else
    match fixedSize with
    | some n =>
      if n = 0 then .error .moduloZero
      else if data.size % n ≠ 0 then .error (.decode (.notMultiple data.size n))
      else .ok ⟨data.size / n, 0, data.size⟩
    | none => do
      let width := offsetWidth data.size
      let table ← (offsetAt data (data.size - width) width).mapError .decode
      if data.size ≤ table ∨ (data.size - table) % width ≠ 0 then .error (.decode (.tableOutside table data.size))
      else return ⟨(data.size - table) / width, width, table⟩

def elementOffset (data : Array UInt8) (f : CollectionFrame) (index : Nat) : Except Error Nat :=
  (offsetAt data (f.tableStart + index * f.offsetWidth) f.offsetWidth).mapError .decode

def previousStop (data : Array UInt8) (f : CollectionFrame) : Nat → Except Error Nat
  | 0 => .ok 0
  | i + 1 => elementOffset data f i

def elementWindow (data : Array UInt8) (f : CollectionFrame) (l : Layout) (index : Nat) : Except Error Window :=
  match l.fixedSize with
  | some n => .ok ⟨index * n, (index + 1) * n⟩
  | none => do
    let previous ← previousStop data f index
    if l.alignment = 0 then .error .moduloZero
    let start := alignUp previous l.alignment
    let stop ← elementOffset data f index
    if stop < start ∨ f.tableStart < stop then .error (.decode (.elementOutside index start stop f.tableStart))
    else return ⟨start, stop⟩

/-- The window of the element at an index that comes from outside. -/
def itemWindow (data : Array UInt8) (l : Layout) (index : Int) : Except Error Window := do
  let f ← frame data l.fixedSize
  if index < 0 ∨ (f.count : Int) ≤ index then .error (.noElement f.count index)
  else elementWindow data f l index.toNat

end Marshal.Framing
