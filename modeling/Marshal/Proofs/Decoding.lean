import Marshal.Codec
import Marshal.Proofs.Dbus.Outcome
import Marshal.Proofs.Formation
import Marshal.Proofs.Gvariant.Outcome
/-!
# Decoding input from outside

Whatever the bytes, a decoder gives a value that could have been built, or one of the errors that are about the input.
-/
namespace Marshal.Codec

open Get

theorem ends_get {cap : Option Int} {maybe : Prop} {c : Codec} {t : Ty} (ht : t.isFormed = true)
    (hm : c.format = .dbus → t.mentionsMaybe = true → maybe) : Ends cap maybe (c.get t) (Value.Conforms t) := by
  unfold Codec.get
  split
  · rename_i hc
    exact Dbus.ends_get hc c.room t ht (hm hc)
  · exact Gvariant.ends_get c.room t ht

/-- **Decoding gives a well-formed value of the type asked for, or refuses the input**: as invalid, as longer than the
cap, or, in D-Bus, for the maybe types in the type asked for. -/
theorem decode_settles (c : Codec) (cap : Option Int) (hcap : ∀ n ∈ cap, 0 ≤ n) (data : List UInt8) (t : Ty)
    (ht : t.Constructed) :
    (∃ v, c.decode cap data t = .ok v ∧ v.ty = t ∧ v.isWellFormed = true) ∨
      ∃ e, c.decode cap data t = .error e ∧ ((∃ d, e = .decode d) ∨ (∃ n ∈ cap, e = .inputOverCap n) ∨
        e = .maybeUnsupported ∧ c.format = .dbus ∧ t.mentionsMaybe = true) := by
  have hget : Ends cap (c.format = .dbus ∧ t.mentionsMaybe = true) (c.get t) (Value.Conforms t) :=
    ends_get (Ty.constructed_iff.1 ht) fun hc hm => ⟨hc, hm⟩
  have hall := ((ends_wrap hcap).bind fun _ _ => hget).run (s := { rest := data }) nofun
  cases hr : c.decode cap data t with
  | ok v =>
    obtain ⟨hty, hwf⟩ := hall.ok hr
    exact .inl ⟨v, rfl, hty, hwf⟩
  | error e =>
    refine .inr ⟨e, rfl, ?_⟩
    cases hall.error hr with
    | invalid d => exact .inl ⟨d, rfl⟩
    | overCap h => exact .inr (.inl ⟨_, h, rfl⟩)
    | unsupported h => exact .inr (.inr ⟨rfl, h⟩)

/-- A variant that holds the byte 7. -/
theorem decode_settles_variant :
    (∀ n ∈ some (4 : Int), 0 ≤ n) ∧ Ty.variant.Constructed ∧
      ∃ v, decode ⟨.dbus, .little, 64, 0⟩ (some 4) [1, 121, 0, 7] .variant = .ok v ∧ v.ty = .variant ∧
        v.isWellFormed = true := by
  refine ⟨by simp, .variant, ?_⟩
  rcases decode_settles ⟨.dbus, .little, 64, 0⟩ (some 4) (by simp) [1, 121, 0, 7] .variant .variant with h | ⟨e, he, -⟩
  · exact h
  · cases he

end Marshal.Codec
