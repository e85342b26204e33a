import Marshal.Framing.Offset
import Marshal.Ty.Layout
import Marshal.Wire.Padding
/-!
# Framed tuples

The members of a GVariant struct or dict entry, each aligned from the start of the tuple. The end of every member of
variable size but the last is in the table, the first one at the very end, so the table is read backwards. Without
members of variable size there is no table, and the tuple is padded to a multiple of its alignment instead.

`windows` locates the members. They follow one another with nothing but padding between them and reach exactly to the
table; anything else is refused.
-/
namespace Marshal.Framing

def allFixed (ls : List Layout) : Bool := ls.all Layout.isFixed

def tupleAlignment (ls : List Layout) : Nat := ls.foldl (fun a l => max a l.alignment) 1

/-- The number of offsets: one for each member of variable size that is not the last. -/
def offsetCount (ls : List Layout) : Nat := ls.dropLast.countP (fun l => !l.isFixed)

/-- Writes members, each with its padding before it. Gives the ends, counted from `start`, that belong into the table,
in the order of the members. -/
def putMembers (put : α → Put Unit) (start : Nat) : List (Layout × α) → Put (List Int)
  | [] => pure []
  | (l, x) :: rest => do
    Put.pad l.alignment
    put x
    let stop : Int ← Put.position
    let ends ← putMembers put start rest
    return if l.isFixed || rest.isEmpty then ends else (stop - start) :: ends

def putTuple (put : α → Put Unit) (alignment : Nat) (members : List (Layout × α)) : Put Unit := do
  let start ← Put.position
  let ends ← putMembers put start members
  let stop : Int ← Put.position
  if allFixed (members.map Prod.fst) then Put.pad alignment else putOffsets ends.reverse (stop - start)

structure TupleFrame where
  size : Nat
  offsetWidth : Nat
  tableStart : Nat
  isFixed : Bool

/-- The end of a member, from what precedes it. `used` is the number of offsets read so far. -/
def memberStop (f : TupleFrame) (data : Array UInt8) (index used start : Nat) (isLast : Bool) (l : Layout) :
    Except DecodeError Nat :=
  match l.fixedSize with
  | some n =>
    if f.isFixed && f.size < start + n then .error (.memberUnderrun index (start + n) f.size) else .ok (start + n)
  | none => if isLast then .ok f.tableStart else offsetAt data (f.size - f.offsetWidth * (used + 1)) f.offsetWidth

def windowsFrom (f : TupleFrame) (data : Array UInt8) : (index used position : Nat) → List Layout →
    Except Error (List Window)
  | _, _, _, [] => .ok []
  | index, used, position, l :: ls => do
    if l.alignment = 0 then .error .moduloZero
    let start := alignUp position l.alignment
    let stop ← (memberStop f data index used start ls.isEmpty l).mapError .decode
    if stop < start ∨ f.tableStart < stop then .error (.decode (.memberOutside index start stop f.tableStart))
    let used := if l.isFixed || ls.isEmpty then used else used + 1
    let ws ← windowsFrom f data (index + 1) used stop ls
    return ⟨start, stop⟩ :: ws

/-- Checks that the members, which end at `stop`, leave nothing but padding before the end or the table. -/
def checkEnd (f : TupleFrame) (ls : List Layout) (stop : Nat) : Except DecodeError Unit :=
  if f.isFixed then
    let expected := alignUp stop (tupleAlignment ls)
    if expected < f.size then .error (.structTooLong expected f.size)
    else if f.size < expected then .error (.structTooShort expected f.size)
    else .ok ()
  else if stop ≠ f.tableStart then .error (.membersMisfit stop f.tableStart)
  else .ok ()

/-- The windows of the members of a tuple that takes the whole of `data`. A tuple has members. -/
def windows (data : Array UInt8) (ls : List Layout) : Except Error (List Window) := do
  if ls.isEmpty then .error .noAlignments
  let width := offsetWidth data.size
  let table := width * offsetCount ls
  if data.size < table then .error (.decode (.tableTooLarge (offsetCount ls) data.size))
  let f : TupleFrame := ⟨data.size, width, data.size - table, allFixed ls⟩
  let ws ← windowsFrom f data 0 0 0 ls
  (checkEnd f ls ((ws.getLast?.map Window.stop).getD 0)).mapError .decode
  return ws

/-- The window of one member, for which all of them are located. -/
def memberWindow (data : Array UInt8) (ls : List Layout) (index : Int) : Except Error Window :=
  if index < 0 ∨ (ls.length : Int) ≤ index then .error (.noStructMember ls.length index)
  else do
    let ws ← windows data ls
    return ws.getD index.toNat ⟨0, 0⟩

end Marshal.Framing
