import Marshal.Proofs.Dbus.Maybe
import Marshal.Proofs.Gvariant.Refusal
/-!
# Encoding any value

Whatever the value, an encoder gives bytes, as many as the value takes, or one of the errors that are about the value
and the limits: `Codec.Refused` says which and when. No error tells of a fault of the encoder itself, such as an offset
or a length that its width cannot hold.
-/
namespace Marshal.Codec

/-- The number of bytes that a value takes from the start of a message. -/
def size (c : Codec) (v : Value) : Nat :=
  match c.format with
  | .dbus => Dbus.stop 0 v
  | .gvariant => Gvariant.size v

/-- What a well-formed value can be refused for. -/
inductive Refused (c : Codec) (cap : Option Int) (v : Value) : Error → Prop
  | tooDeep (h : c.maxDepth < v.depth) : Refused c cap v (.valueTooDeep c.maxDepth)
  /-- A number or a text that does not fit. -/
  | mismatch {e : Error} (h : e.kind = .mismatch) : Refused c cap v e
  | overCap {N : Int} (h : N ∈ cap) : Refused c cap v (.outputOverCap N)
  /-- In D-Bus, for the bytes that the elements of an array take. -/
  | tooLong {n : Nat} (hc : c.format = .dbus) (hn : n ∈ Dbus.arrayLengths 0 v) (h : c.maxArrayLength < n) :
    Refused c cap v (.arrayTooLong n c.maxArrayLength)
  /-- In D-Bus, for a maybe type. -/
  | unsupported (hc : c.format = .dbus) (h : v.ty.mentionsMaybe = true ∨ ∃ t ∈ v.heldTypes, t.mentionsMaybe = true) :
    Refused c cap v .maybeUnsupported

variable {c : Codec} {cap : Option Int} {v : Value} {e : Error}

theorem room_le_iff {d : Nat} : c.room ≤ d ↔ c.maxDepth < d := by
  unfold room
  omega

theorem Refused.of_dbus (hc : c.format = .dbus) (hv : v.isTyped = true) (hmax : c.maxArrayLength ≤ 0xFFFFFFFF)
    (h : Dbus.Refusal c c.room 0 v e) : Refused c cap v e := by
  cases h with
  | tooDeep h => exact .tooDeep (room_le_iff.1 h)
  | mismatch h => exact .mismatch h
  | tooLong hn h => exact .tooLong hc hn h
  | overflow hn h hlarge => omega
  | maybe h =>
    refine .unsupported hc ?_
    by_contra hnot
    simp only [not_or, not_exists, not_and, Bool.not_eq_true] at hnot
    rw [v.showsMaybe_of_mentionsMaybe hv hnot.1 hnot.2] at h
    cases h

theorem Refused.of_gvariant (hsize : Gvariant.size v < 2 ^ 64) (h : Gvariant.Refusal c c.room v e) :
    Refused c cap v e := by
  cases h with
  | tooDeep h => exact .tooDeep (room_le_iff.1 h)
  | mismatch h => exact .mismatch h
  | tooLarge h => exact absurd hsize (not_lt.2 h)

/-- The bytes of a value are as many as it takes, and it does not nest too deep. -/
theorem size_of_encode (hv : v.isTyped = true) {b : Array UInt8} (h : c.encode none v = .ok b) :
    b.size = c.size v ∧ (v.depth : Int) ≤ c.maxDepth := by
  unfold size
  cases hc : c.format with
  | dbus =>
    rw [Dbus.encode_eq hc] at h
    obtain ⟨cs, hcs, rfl⟩ := except_map_eq_ok.1 h
    have hstop := Dbus.stop_of_cells hcs
    rw [Nat.zero_add] at hstop
    refine ⟨?_, not_lt.1 (mt room_le_iff.2 (not_le.2 (Dbus.depth_lt_of_cells hcs)))⟩
    rw [List.size_toArray, Cell.length_render, hstop]
  | gvariant =>
    rw [Gvariant.encode_eq hc hv] at h
    obtain ⟨cs, hcs, rfl⟩ := except_map_eq_ok.1 h
    refine ⟨?_, not_lt.1 (mt room_le_iff.2 (not_le.2 (Gvariant.depth_lt_of_cells hcs)))⟩
    rw [List.size_toArray, Cell.length_render, Gvariant.length_eq_size hcs]

/-- **Encoding gives the bytes of a value, or refuses it** as too deep, for a number or a text that does not fit, as
longer than the cap, or, in D-Bus, for an array that is too long or for a maybe type. What is too deep is never
encoded. -/
theorem encode_settles (c : Codec) (cap : Option Int) {v : Value} (hv : v.isWellFormed = true)
    (hmax : c.maxArrayLength ≤ 0xFFFFFFFF) (hsize : c.format = .gvariant → c.size v < 2 ^ 64) :
    (∃ b, c.encode cap v = .ok b ∧ b.size = c.size v ∧ (v.depth : Int) ≤ c.maxDepth) ∨
      ∃ e, c.encode cap v = .error e ∧ Refused c cap v e := by
  have htyped := v.isTyped_of_isWellFormed hv
  cases hr : c.encode cap v with
  | ok b => exact .inl ⟨b, rfl, size_of_encode htyped ((c.composed_put 0 v).run_of_capped hr)⟩
  | error e =>
    refine .inr ⟨e, rfl, ?_⟩
    rcases (c.composed_put 0 v).error_of_run_capped hr with hnone | ⟨N, hN, rfl⟩
    · have hnone : c.encode none v = .error e := hnone
      cases hc : c.format with
      | dbus =>
        rw [Dbus.encode_eq hc] at hnone
        exact .of_dbus hc htyped hmax (Dbus.refusal_of_cells (except_map_eq_error.1 hnone))
      | gvariant =>
        have hlt := hsize hc
        rw [size, hc] at hlt
        rw [Gvariant.encode_eq hc htyped] at hnone
        exact .of_gvariant hlt (Gvariant.refusal_of_cells (except_map_eq_error.1 hnone))
    · exact .overCap hN

/-- Three bytes in an array that may take two are refused, but not in GVariant, which has no such limit. -/
theorem encode_settles_array :
    let v : Value := .variant (.array (.basic (.int .byte))
      [.scalar (.int .byte 1), .scalar (.int .byte 2), .scalar (.int .byte 3)])
    let dbus : Codec := ⟨.dbus, .little, 2, 2⟩
    let gvariant : Codec := ⟨.gvariant, .little, 2, 2⟩
    v.isWellFormed = true ∧ (2 : Int) ≤ 0xFFFFFFFF ∧ gvariant.size v < 2 ^ 64 ∧
      dbus.encode (some 16) v = .error (.arrayTooLong 3 2) ∧ Refused dbus (some 16) v (.arrayTooLong 3 2) ∧
      gvariant.encode (some 16) v = .ok #[1, 2, 3, 0, 97, 121] ∧ gvariant.size v = 6 := by
  intro v dbus gvariant
  have hv : v.isWellFormed = true := by decide
  have hsize : gvariant.size v < 2 ^ 64 := by decide
  have herror : dbus.encode (some 16) v = .error (.arrayTooLong 3 2) := by
    simp only [dbus, v]
    rfl
  have hok : gvariant.encode (some 16) v = .ok #[1, 2, 3, 0, 97, 121] := by
    simp only [gvariant, v]
    rfl
  refine ⟨hv, by decide, hsize, herror, ?_, hok, ?_⟩
  · rcases encode_settles dbus (some 16) hv (by decide) nofun with ⟨b, hb, -⟩ | ⟨e, he, h⟩
    · cases herror.symm.trans hb
    · cases herror.symm.trans he
      exact h
  · rcases encode_settles gvariant (some 16) hv (by decide) (fun _ => hsize) with ⟨b, hb, hlen, -⟩ | ⟨e, he, -⟩
    · cases hok.symm.trans hb
      exact hlen.symm
    · cases hok.symm.trans he

end Marshal.Codec
