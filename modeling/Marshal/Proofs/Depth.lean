import Marshal.Proofs.Dbus.Depth
import Marshal.Proofs.Dbus.RoundTrip
import Marshal.Proofs.Gvariant.Depth
import Marshal.Proofs.Gvariant.RoundTrip
/-!
# The depth limit on the way out and back

An encoder measures the depth of the value that it walks through, a decoder also that of the types in the signatures of
variants, before it looks at what they hold. An empty array in a variant shows the difference: it takes two levels,
whatever its elements would take. So a value that was encoded is never too deep for the decoder, but the signature of
what a variant in it holds can be.
-/
namespace Marshal

variable {c : Codec} {v : Value} {b : Array UInt8}

/-- What takes room to write is not written under a limit below zero. -/
theorem Codec.maxDepth_nonneg (h : c.room ≠ 0) : 0 ≤ c.maxDepth := by
  unfold room at h
  omega

/-- The decoder with no more room than the encoder had, but with the limit of the formats on signatures, gives the value
back. The codec's own limit narrows that. -/
theorem Dbus.lowers_decode (hf : c.format = .dbus) (hv : v.isWellFormed = true)
    (hheld : ∀ t ∈ v.heldTypes, t.mentionsMaybe = false ∧ (t.nesting : Int) ≤ Limits.depth)
    (h : c.encode none v = .ok b) :
    ∃ high, high = .ok v ∧
      Lowers (Value.TooDeep c.maxDepth) (fun w => w.ty = v.ty) (c.decode none b.toList v.ty) high := by
  rw [encode_eq hf] at h
  obtain ⟨cs, hcs, rfl⟩ := except_map_eq_ok.1 h
  have h0 : 0 ≤ c.maxDepth := Codec.maxDepth_nonneg fun hroom => by rw [hroom] at hcs; cases hcs
  have hread : Get.Reads (get (c.withDepth Limits.depth) c.room v.ty) (0 : Nat) (Cell.render cs) v :=
    reads_get c.room hv hheld (cells_withDepth _ hcs) (Cell.matches_render cs)
  refine ⟨_, hread.takes.run, ?_⟩
  rw [decode_eq hf]
  exact (narrows_get h0 _ c.room v.ty).run _

/-- The same in GVariant, where a signature of any length is written. -/
theorem Gvariant.lowers_decode (hf : c.format = .gvariant) (hv : v.isWellFormed = true)
    (hheld : ∀ t ∈ v.heldTypes, t.signature.length ≤ Limits.signatureLength ∧ (t.nesting : Int) ≤ Limits.depth)
    (h : c.encode none v = .ok b) :
    ∃ high, high = .ok v ∧
      Lowers (Value.TooDeep c.maxDepth) (fun w => w.ty = v.ty) (c.decode none b.toList v.ty) high := by
  rw [encode_eq hf (Value.isTyped_of_isWellFormed v hv)] at h
  obtain ⟨cs, hcs, rfl⟩ := except_map_eq_ok.1 h
  have h0 : 0 ≤ c.maxDepth := Codec.maxDepth_nonneg fun hroom => by rw [hroom] at hcs; cases hcs
  have hread : ReadsBack (c.withDepth Limits.depth) c.room v :=
    readsBack (c := c.withDepth Limits.depth) hf c.room hv hheld
  refine ⟨_, hread 0 cs (Cell.render cs) (dvd_zero _) (cells_withDepth _ hcs) (Cell.matches_render cs), ?_⟩
  rw [decode_eq hf]
  exact lowers_inside (narrows_get h0 _ c.room v.ty) 0 _

namespace Codec

theorem lowers_decode (hv : v.isWellFormed = true) (hm : ∀ t ∈ v.heldTypes, t.mentionsMaybe = false)
    (hl : ∀ t ∈ v.heldTypes, t.signature.length ≤ Limits.signatureLength) (h : c.encode none v = .ok b) :
    ∃ high, high = .ok v ∧
      Lowers (Value.TooDeep c.maxDepth) (fun w => w.ty = v.ty) (c.decode none b.toList v.ty) high := by
  have hn : ∀ t ∈ v.heldTypes, (t.nesting : Int) ≤ Limits.depth := fun t ht =>
    Int.ofNat_le.2 (Ty.nesting_le_depth (Value.formed_of_mem_heldTypes v hv t ht).1 (hm t ht))
  cases hf : c.format with
  | dbus => exact Dbus.lowers_decode hf hv (fun t ht => ⟨hm t ht, hn t ht⟩) h
  | gvariant => exact Gvariant.lowers_decode hf hv (fun t ht => ⟨hl t ht, hn t ht⟩) h

/-- **The depth limit on what was encoded.** A decoder with the same limit never finds the input too deep. It refuses the
signature of what a variant holds exactly when there is one, at any level, whose type nests more containers than the
limit; otherwise it gives the value back. -/
theorem decode_of_encode_within_depth (c : Codec) (v : Value) (b : Array UInt8) (hv : v.isWellFormed = true)
    (hm : ∀ t ∈ v.heldTypes, t.mentionsMaybe = false)
    (hl : ∀ t ∈ v.heldTypes, t.signature.length ≤ Limits.signatureLength) (h : c.encode none v = .ok b) :
    (∀ e, c.decode none b.toList v.ty = .error e → e.kind ≠ .decode .depth) ∧
      ((∃ e, c.decode none b.toList v.ty = .error e ∧ e.kind = .decode .signature) ↔
        ∃ t ∈ v.heldTypes, c.maxDepth < (t.nesting : Int)) ∧
      ((∀ t ∈ v.heldTypes, (t.nesting : Int) ≤ c.maxDepth) → c.decode none b.toList v.ty = .ok v) := by
  obtain ⟨high, hhigh, hlowers⟩ := lowers_decode hv hm hl h
  have hback (hn : ¬ v.TooDeep c.maxDepth) : c.decode none b.toList v.ty = .ok v := hlowers.ok hhigh hn
  refine ⟨fun e he hk => ?_, ⟨?_, hlowers.error hhigh⟩, fun hall => hback ?_⟩
  · by_cases hd : v.TooDeep c.maxDepth
    · obtain ⟨e', he', hk'⟩ := hlowers.error hhigh hd
      cases he.symm.trans he'
      cases hk.symm.trans hk'
    · cases he.symm.trans (hback hd)
  · rintro ⟨e, he, -⟩
    by_contra hd
    cases he.symm.trans (hback hd)
  · rintro ⟨t, ht, hlt⟩
    exact absurd (hall t ht) (not_le.2 hlt)

/-- In a variant that is in a struct, an array of arrays that has no elements. -/
theorem decode_of_encode_within_depth_struct :
    let c : Codec := ⟨.gvariant, .big, 2, Limits.arrayLength⟩
    let v : Value := .struct [.scalar (.int .byte 7), .variant (.array (.array (.array .byte)) [])]
    let b : Array UInt8 := #[7, 0, 0, 0, 0, 0, 0, 0, 0, 97, 97, 97, 121]
    c.encode none v = .ok b ∧ (∀ e, c.decode none b.toList v.ty = .error e → e.kind ≠ .decode .depth) ∧
      ∃ e, c.decode none b.toList v.ty = .error e ∧ e.kind = .decode .signature := by
  intro c v b
  have h : c.encode none v = .ok b := by rfl
  have hw := decode_of_encode_within_depth c v b (by decide) (by decide) (by decide) h
  exact ⟨h, hw.1, hw.2.1.2 ⟨.array (.array (.array .byte)), List.mem_singleton_self _, by decide⟩⟩

/-- An empty array in a variant is encoded with room for two levels, and its signature nests two containers. -/
theorem decode_of_encode_empty_array :
    let v : Value := .variant (.array (.array .byte) [])
    v.isWellFormed = true ∧ v.ty.mentionsMaybe = false ∧ (∀ t ∈ v.heldTypes, t.mentionsMaybe = false) ∧
      (∀ t ∈ v.heldTypes, t.signature.length ≤ Limits.signatureLength) ∧
        ∀ format, ∃ b e, encode ⟨format, .little, 1, Limits.arrayLength⟩ none v = .ok b ∧
          decode ⟨format, .little, 1, Limits.arrayLength⟩ none b.toList v.ty = .error e ∧
            e.kind = .decode .signature := by
  intro v
  refine ⟨by decide, rfl, by decide, by decide, fun format => ?_⟩
  cases format with
  | dbus => exact ⟨#[3, 97, 97, 121, 0, 0, 0, 0, 0, 0, 0, 0], _, rfl, rfl, rfl⟩
  | gvariant => exact ⟨#[0, 97, 97, 121], _, rfl, rfl, rfl⟩

end Codec

end Marshal
