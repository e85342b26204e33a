import Marshal.Codec.Dbus
import Marshal.Proofs.Outcome
/-!
# How reading D-Bus ends

A D-Bus reader gives a well-formed value of its type, or refuses the input. The only type that it does not have is
maybe, which the signature of a variant cannot mention, so it has to be in the type that the caller asks for.
-/
namespace Marshal.Dbus

open Get

variable {cap : Option Int} {maybe : Prop} {c : Codec}

theorem ends_getScalar (o : ByteOrder) : ∀ b : Basic, Ends cap maybe (getScalar o b) (Scalar.Conforms b)
  | .int k => (ends_int (pos_of_dvd_eight k.width_dvd_eight)).map fun _ h => Scalar.conforms_int h
  | .boolean => (ends_boolean (by decide)).map fun _ _ => ⟨rfl, rfl⟩
  | .double => ends_double.map fun _ _ => ⟨rfl, rfl⟩
  | .text .string => (ends_string _ o).map fun _ h => Scalar.conforms_text h rfl
  | .text .objectPath => (ends_objectPath _ o).map fun _ h => Scalar.conforms_text h.1 h.2
  | .text .signature => (ends_signature true _).map fun _ h => Scalar.conforms_text h.1 h.2

theorem ends_alignment {t : Ty} (ht : t.mentionsMaybe = true → maybe) :
    Ends cap maybe (Get.ofExcept (alignment t)) fun _ => True := by
  refine ends_ofExcept ?_
  cases t with
  | maybe t => exact settles_error (.unsupported (ht rfl))
  | _ => exact settles_ok trivial

theorem ends_getUntil {get : Get Value} {Q : Value → Prop} (hget : Ends cap maybe get Q) (stop : Int) :
    ∀ (n : Nat) (items : List Value), (∀ v ∈ items, Q v) →
      Ends cap maybe (getUntil stop get n items) fun vs => ∀ v ∈ vs, Q v
  | 0, items, h => ends_pure fun v hv => h v (List.mem_reverse.1 hv)
  | n + 1, items, h => by
    rw [getUntil]
    refine ends_position.bind fun p _ => ?_
    split
    · exact hget.bind fun v hv => ends_getUntil hget stop n (v :: items) (List.forall_mem_cons.2 ⟨hv, h⟩)
    · exact ends_pure fun v hv => h v (List.mem_reverse.1 hv)

theorem ends_getArray {get : Get Value} {t : Ty} (hget : Ends cap maybe get (Value.Conforms t))
    (ht : t.mentionsMaybe = true → maybe) :
    Ends cap maybe (getArray c get t) fun vs => ∀ v ∈ vs, Value.Conforms t v := by
  refine (ends_alignment ht).bind fun a _ => ?_
  refine (ends_int (by decide : 0 < lengthWidth)).bind fun n _ => ?_
  simp only
  split
  · exact ends_fail_bind
  refine (ends_pad a).bind fun _ _ => (ends_has _).bind fun enough _ => ?_
  split
  · exact ends_remaining.bind fun _ _ => ends_fail_bind
  refine ends_position.bind fun start _ => (ends_getUntil hget _ _ [] nofun).bind fun vs hvs => ?_
  refine ends_position.bind fun p _ => ?_
  split
  · exact ends_fail_bind
  · exact ends_pure hvs

theorem ends_getEach {get : Ty → Get Value} {Q : Ty → Value → Prop} :
    ∀ ts : List Ty, (∀ t ∈ ts, Ends cap maybe (get t) (Q t)) → Ends cap maybe (getEach get ts) (List.Forall₂ Q ts)
  | [], _ => ends_pure .nil
  | t :: ts, h => by
    obtain ⟨h1, h2⟩ := List.forall_mem_cons.1 h
    exact h1.bind fun v hv => (ends_getEach ts h2).map fun vs hvs => .cons hv hvs

theorem ends_getKey (room : Nat) (k : Basic) : Ends cap maybe (getKey c room k) (Scalar.Conforms k) := by
  unfold getKey
  split
  · exact ends_fail_bind
  · exact (ends_pad _).bind fun _ _ => ends_getScalar c.order k

/-- **Reading gives a well-formed value of the type, or refuses the input.** -/
theorem ends_get (hc : c.format = .dbus) : ∀ (room : Nat) (t : Ty), t.isFormed = true →
    (t.mentionsMaybe = true → maybe) → Ends cap maybe (get c room t) (Value.Conforms t)
  | 0, _, _, _ => ends_fail
  | room + 1, t, ht, hm => by
    refine (ends_alignment hm).bind fun a _ => (ends_pad a).bind fun _ _ => ?_
    cases t with
    | basic b => exact (ends_getScalar c.order b).map fun s hs => Value.conforms_scalar hs
    | array t =>
      have htf := ht
      simp only [Ty.isFormed, Bool.and_eq_true] at htf
      exact (ends_getArray (ends_get hc room t htf.1 hm) hm).map fun vs hvs => Value.conforms_array ht hvs
    | struct ts =>
      have htf := ht
      simp only [Ty.isFormed, Bool.and_eq_true, Ty.areMembers_iff] at htf
      refine (ends_getEach ts fun t hmem => ?_).map fun vs hvs => Value.conforms_struct ht hvs
      refine ends_get hc room t (htf.1.2 t hmem).1 fun h => hm ?_
      rw [Ty.mentionsMaybe, ← Bool.not_eq_false, Ty.mentionMaybe_eq_false_iff]
      intro hnone
      rw [hnone t hmem] at h
      cases h
    | entry k t =>
      have htf := ht
      simp only [Ty.isFormed, Bool.and_eq_true] at htf
      exact (ends_getKey room k).bind fun s hs =>
        (ends_get hc room t htf.1.1 hm).map fun v hv => Value.conforms_entry ht hs hv
    | variant =>
      refine (ends_signature true none).bind fun s _ => ?_
      cases hp : Signature.parse c.reading (Text.ofString s) with
      | error e => exact ends_fail
      | ok t =>
        obtain ⟨-, -, hacc⟩ := Signature.parse_eq_ok_iff.1 hp
        have hnone := hacc.maybes (congrArg some hc)
        exact (ends_get hc room t hacc.isFormed fun h => by rw [hnone] at h; cases h).map
          fun v hv => Value.conforms_variant (hacc.isEntry_eq_false rfl) hv
    | maybe t => exact ends_throw (.unsupported (hm rfl))

end Marshal.Dbus
