import Marshal.Codec.Dbus
import Marshal.Proofs.Metering
/-!
# D-Bus behind a cap

A D-Bus reader reads every byte by itself, so a cap also meets the reads that ask for more than is there.
-/
namespace Marshal.Dbus

open Get

variable {c : Codec} {told : Prop}

theorem metered_getScalar (o : ByteOrder) (ht : told) : ∀ b : Basic, Metered (Source.meter told) (getScalar o b)
  | .int _ => (metered_int _ ht).map
  | .boolean => (metered_boolean _ o ht).map
  | .double => (metered_double o ht).map
  | .text .string => (metered_string _ o ht).map
  | .text .objectPath => (metered_objectPath _ o ht).map
  | .text .signature => (metered_signature true _ ht).map

theorem metered_alignment (t : Ty) : Metered (Source.meter told) (Get.ofExcept (alignment t)) := by
  refine metered_ofExcept fun _ e he _ => ?_
  unfold alignment at he
  split at he
  · cases he
  · cases he
    rfl

theorem metered_getUntil {get : Get Value} (hget : Metered (Source.meter told) get) (stop : Int) :
    ∀ (n : Nat) (items : List Value), Metered (Source.meter told) (getUntil stop get n items)
  | 0, items => metered_pure _
  | n + 1, items => by
    rw [getUntil]
    refine metered_position.bind fun p => ?_
    split
    · exact hget.bind fun v => metered_getUntil hget stop n (v :: items)
    · exact metered_pure _

theorem metered_getArray {get : Get Value} (hget : Metered (Source.meter told) get) (t : Ty) (ht : told) :
    Metered (Source.meter told) (getArray c get t) := by
  refine (metered_alignment t).bind fun a => (metered_int _ ht).bind fun length => ?_
  simp only
  split
  · exact metered_fail_bind fun _ _ => rfl
  refine (metered_pad a ht).bind fun _ => (metered_has _).bind fun enough => ?_
  split
  · exact metered_remaining.bind fun _ => metered_fail_bind fun _ _ => rfl
  refine metered_position.bind fun start => (metered_getUntil hget _ _ []).bind fun vs => ?_
  refine metered_position.bind fun p => ?_
  split
  · exact metered_fail_bind fun _ _ => rfl
  · exact metered_pure vs

theorem metered_getEach {get : Ty → Get Value} (hget : ∀ t, Metered (Source.meter told) (get t)) (ts : List Ty) :
    Metered (Source.meter told) (getEach get ts) := by
  induction ts with
  | nil => exact metered_pure []
  | cons t ts ih => exact (hget t).bind fun _ => ih.map

theorem metered_getKey (room : Nat) (k : Basic) (ht : told) : Metered (Source.meter told) (getKey c room k) := by
  unfold getKey
  split
  · exact metered_fail_bind fun _ _ => rfl
  · exact (metered_pad _ ht).bind fun _ => metered_getScalar c.order ht k

/-- **Reading a value is charged for the bytes that it takes**, and for those that it asks for in vain. -/
theorem metered_get (ht : told) : ∀ (room : Nat) (t : Ty), Metered (Source.meter told) (get c room t)
  | 0, _ => metered_fail fun _ _ => rfl
  | room + 1, t => by
    refine (metered_alignment t).bind fun a => (metered_pad a ht).bind fun _ => ?_
    cases t with
    | basic b => exact (metered_getScalar c.order ht b).map
    | array t => exact (metered_getArray (metered_get ht room t) t ht).map
    | struct ts => exact (metered_getEach (metered_get ht room) ts).map
    | entry k t => exact (metered_getKey room k ht).bind fun _ => (metered_get ht room t).map
    | variant =>
      refine (metered_signature true none ht).bind fun s => ?_
      cases Signature.parse c.reading (Text.ofString s) with
      | error e => exact metered_fail fun _ _ => rfl
      | ok t => exact (metered_get ht room t).map
    | maybe t => exact metered_throw fun _ _ => rfl

end Marshal.Dbus
