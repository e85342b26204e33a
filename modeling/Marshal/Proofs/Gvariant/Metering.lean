import Marshal.Codec.Gvariant
import Marshal.Proofs.Metering
/-!
# GVariant behind a cap

A container reads all that is left and then reads its children out of that, with no cap before them. So a cap meets only
what the outermost value asks for, and that is more than is left only where the value is a scalar of a fixed size.
-/
namespace Marshal.Gvariant

open Get Framing

variable {c : Codec} {told : Prop}

theorem metered_getScalar (o : ByteOrder) (ht : told) : ∀ b : Basic, Metered (Source.meter told) (getScalar o b)
  | .int _ => (metered_int _ ht).map
  | .boolean => (metered_boolean _ o ht).map
  | .double => (metered_double o ht).map
  | .text .string => (metered_string _ o ht).map
  | .text .objectPath => (metered_objectPath _ o ht).map
  | .text .signature => (metered_signature false _ ht).map

/-- What windows fail with is told of no read behind the cap. -/
theorem metered_inner {α : Type} {r : Except Error α} (hn : ¬ told) :
    Metered (Source.meter told) (Get.ofExcept r) := metered_ofExcept fun ht => absurd ht hn

theorem metered_getElements (l : Layout) (get : Get Value) (hn : ¬ told) :
    Metered (Source.meter told) (getElements l get) :=
  metered_position.bind fun _ => metered_readAll.bind fun _ => (metered_inner hn).bind fun _ => metered_inner hn

theorem metered_getMembers (get : Ty → Get Value) (ts : List Ty) (hn : ¬ told) :
    Metered (Source.meter told) (getMembers get ts) :=
  metered_position.bind fun _ => metered_readAll.bind fun _ => (metered_inner hn).bind fun _ => metered_inner hn

/-- **A value at the start of an input is charged for what it takes.** Only a scalar can ask for more than is left; at
the start there is no padding. -/
theorem exists_metered_get (room : Nat) (t : Ty) : ∃ step : Get Value,
    Metered (Source.meter (∃ b, t = .basic b)) step ∧ ∀ s : Source, s.position = 0 → get c room t s = step s := by
  cases room with
  | zero => exact ⟨_, metered_fail fun _ _ => rfl, fun _ _ => rfl⟩
  | succ room =>
    refine ⟨_, ?_, fun s hs => pad_bind_apply (hs ▸ dvd_zero _)⟩
    cases t with
    | basic b => exact (metered_getScalar c.order ⟨b, rfl⟩ b).map
    | array t => exact (metered_getElements _ _ nofun).map
    | struct ts => exact (metered_getMembers _ ts nofun).map
    | entry k t =>
      refine (metered_getMembers _ _ nofun).bind fun vs => ?_
      split <;> exact metered_pure _
    | variant =>
      refine metered_position.bind fun base => metered_readAll.bind fun bs => ?_
      split
      · exact metered_fail fun _ _ => rfl
      · exact (metered_inner nofun).bind fun t => (metered_inner nofun).map
    | maybe t =>
      refine metered_position.bind fun base => metered_readAll.bind fun bs => ?_
      split
      · exact metered_pure _
      split
      · exact (metered_inner nofun).map
      split
      · exact metered_fail fun _ _ => rfl
      · exact (metered_inner nofun).map

end Marshal.Gvariant
