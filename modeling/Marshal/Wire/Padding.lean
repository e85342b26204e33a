import Marshal.Stream.Sink
import Marshal.Stream.Source
import Marshal.Ty.Layout
/-!
# Padding

Zero bytes before a value, up to the next multiple of its alignment. A reader skips them without a look at what they
are. The alignments of types are positive, and for these the padding is `padTo`; `padding` says what it is for any other
number, and `padding_natCast` that the two agree.
-/
namespace Marshal

/-- The residue of the way from an offset to a multiple of an alignment, which has the sign of the alignment. -/
def padding (offset alignment : Int) : Except Error Int :=
  if alignment = 0 then .error .moduloZero else .ok ((-offset).fmod alignment)

theorem padding_natCast (offset : Int) {alignment : Nat} (h : 0 < alignment) :
    padding offset alignment = .ok (padTo offset alignment : Int) := by
  have h0 : (alignment : Int) ≠ 0 := by omega
  rw [padding, if_neg h0, Int.fmod_eq_emod_of_nonneg _ (by omega), padTo, Int.toNat_of_nonneg (Int.emod_nonneg _ h0)]

/-- Writes the padding before an alignment, which is at most eight bytes at a time. -/
def Put.pad (alignment : Nat) : Put Unit := do
  let n := padTo (← Put.position) alignment
  if n = 0 then pure () else Put.writeBytes (List.replicate (min n 8) 0)

def Get.pad (alignment : Nat) : Get Unit := do
  let n := padTo (← Get.position) alignment
  if n = 0 then pure () else discard (Get.readBytes n true)

/-- Writes padding up to a multiple of any number. Of a negative amount all is written but as much of the eight bytes
that there are at most. -/
def Put.align (alignment : Int) : Put Unit := do
  match padding (← Put.position) alignment with
  | .error e => throw e
  | .ok n =>
    if n = 0 then pure ()
    else Put.writeBytes (List.replicate (if n < 0 then (8 + n).toNat else min n.toNat 8) 0)

def Get.align (alignment : Int) : Get Unit := do
  let n ← Get.ofExcept (padding (← Get.position) alignment)
  if n = 0 then pure () else discard (Get.readBytes n true)

end Marshal
