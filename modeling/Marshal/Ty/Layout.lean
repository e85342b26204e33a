import Marshal.Ty.Basic
/-!
# Alignment and size

Each format aligns every value to a power of two that follows from its type. In D-Bus that is the alignment of the first
thing written, and maybe types have none, for they are not supported. In GVariant a fixed-size basic type is aligned to
its size, text to nothing, and a container to the most demanding of its parts; numbers and structs of fixed-size members
have the same size whatever their value.
-/
namespace Marshal

/-- The number of bytes from an offset to the next multiple of an alignment. -/
def padTo (offset : Int) (alignment : Nat) : Nat := ((-offset) % alignment).toNat

def alignUp (offset alignment : Nat) : Nat := offset + padTo offset alignment

namespace Basic

def dbusAlignment : Basic → Nat
  | .int k => k.width
  | .boolean => 4
  | .double => 8
  | .text .signature => 1
  | .text _ => 4

/-- The number of bytes in GVariant, none for text. -/
def fixedSize : Basic → Option Nat
  | .int k => some k.width
  | .boolean => some 1
  | .double => some 8
  | .text _ => none

def gvariantAlignment (b : Basic) : Nat := b.fixedSize.getD 1

end Basic

namespace Ty

/-- None for a maybe type. -/
def dbusAlignment? : Ty → Option Nat
  | .basic b => some b.dbusAlignment
  | .array _ => some 4
  | .struct _ | .entry .. => some 8
  | .variant => some 1
  | .maybe _ => none

mutual
def gvariantAlignment : Ty → Nat
  | .basic b => b.gvariantAlignment
  | .array t | .maybe t => gvariantAlignment t
  | .struct ts => gvariantAlignments ts
  | .entry k t => max k.gvariantAlignment (gvariantAlignment t)
  | .variant => 8

def gvariantAlignments : List Ty → Nat
  | [] => 1
  | t :: ts => max (gvariantAlignment t) (gvariantAlignments ts)
end

mutual
/-- The size of every GVariant value of a type, padding between the members and at the end included; none when it
depends on the value. -/
def fixedSize : Ty → Option Nat
  | .basic b => b.fixedSize
  | .struct ts => (fixedSizes 0 ts).map (alignUp · (gvariantAlignments ts))
  | .entry k t =>
    match k.fixedSize, fixedSize t with
    | some m, some n =>
      some (alignUp (alignUp m (gvariantAlignment t) + n) (max k.gvariantAlignment (gvariantAlignment t)))
    | _, _ => none
  | .array _ | .variant | .maybe _ => none

/-- The end of members placed one after the other from an offset on. -/
def fixedSizes : Nat → List Ty → Option Nat
  | offset, [] => some offset
  | offset, t :: ts =>
    match fixedSize t with
    | some n => fixedSizes (alignUp offset (gvariantAlignment t) + n) ts
    | none => none
end

end Ty

structure Layout where
  alignment : Nat
  /-- None for a child whose size depends on its value. -/
  fixedSize : Option Nat
deriving DecidableEq, Repr

namespace Layout

def isFixed (l : Layout) : Bool := l.fixedSize.isSome

def ofTy (t : Ty) : Layout := ⟨t.gvariantAlignment, t.fixedSize⟩

end Layout

end Marshal
