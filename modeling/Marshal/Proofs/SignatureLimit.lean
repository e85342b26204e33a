import Marshal.Proofs.Dbus.RoundTrip
import Marshal.Proofs.Gvariant.RoundTrip
/-!
# The limit on the signature of a variant

A variant's signature is at most 255 characters long. D-Bus counts them when it writes a signature and when it reads
one. GVariant counts them only when it reads one, so it writes variants that it then refuses.

`answers_decode` is the fact behind it, for either format: what was encoded is decoded to itself, or the decoder has
refused the signature of what a variant holds, and `readSignature` says why.
-/
namespace Marshal

namespace Codec

variable {c : Codec} {v : Value} {b : Array UInt8}

/-- What a decoder makes of the signature of a type. -/
def readSignature (c : Codec) : Ty → Except DecodeError Ty :=
  match c.format with
  | .dbus => Dbus.readSignature c
  | .gvariant => Gvariant.readSignature c

theorem readSignature_dbus (hf : c.format = .dbus) : c.readSignature = Dbus.readSignature c := by
  rw [readSignature, hf]

theorem readSignature_gvariant (hf : c.format = .gvariant) : c.readSignature = Gvariant.readSignature c := by
  rw [readSignature, hf]

/-- **What was encoded is decoded to itself, or the signature of what a variant holds is refused.** -/
theorem answers_decode (hv : v.isWellFormed = true) (h : c.encode none v = .ok b) :
    Answers c.readSignature v.heldTypes v (c.decode none b.toList v.ty) := by
  cases hf : c.format with
  | dbus =>
    rw [Dbus.encode_eq hf] at h
    obtain ⟨cs, hcs, rfl⟩ := except_map_eq_ok.1 h
    rw [Dbus.decode_eq hf, readSignature_dbus hf]
    exact (Dbus.gives_get c.room hv hcs (Cell.matches_render cs)).run
  | gvariant =>
    rw [Gvariant.encode_eq hf (Value.isTyped_of_isWellFormed v hv)] at h
    obtain ⟨cs, hcs, rfl⟩ := except_map_eq_ok.1 h
    rw [Gvariant.decode_eq hf, readSignature_gvariant hf]
    exact Gvariant.answersBack c c.room hv 0 cs _ (dvd_zero _) hcs (Cell.matches_render cs)

end Codec

theorem Dbus.kind_of_readSignature {c : Codec} {t : Ty} {d : DecodeError} (h : readSignature c t = .error d) :
    d.kind = .signature := by
  unfold readSignature at h
  split at h
  · cases h
    rfl
  · cases hp : Signature.parse c.reading t.signature with
    | ok u =>
      rw [hp] at h
      cases h
    | error e =>
      rw [hp] at h
      cases h
      rfl

/-- A signature is refused for its length exactly when it is too long. -/
theorem Gvariant.kind_of_readSignature {c : Codec} {t : Ty} {d : DecodeError} (h : readSignature c t = .error d) :
    d.kind = .signatureLength ↔ Limits.signatureLength < t.signature.length := by
  unfold readSignature signatureType at h
  rw [List.length_map] at h
  split at h
  · rename_i hlt
    cases h
    exact iff_of_true rfl hlt
  rename_i hle
  refine iff_of_false ?_ hle
  simp only at h
  split at h
  · cases h
    nofun
  · cases hp : Signature.parse c.reading ((t.signature.map UInt8.ofNat).map UInt8.toNat) with
    | ok u =>
      rw [hp] at h
      cases h
    | error e =>
      rw [hp] at h
      cases h
      nofun

/-- An array without elements is written in a variant whatever type it has, however long the signature of that is. -/
theorem Gvariant.exists_encode_emptyArray {c : Codec} (hc : c.format = .gvariant) (h : 1 ≤ c.maxDepth) (t : Ty) :
    ∃ b, c.encode none (.variant (.array t [])) = .ok b := by
  obtain ⟨room, hroom⟩ : ∃ room, c.room = room + 2 := ⟨c.room - 2, by unfold Codec.room; omega⟩
  have helements : elementCells (cells c room) t [] = .ok [] := by
    change Framing.withTable [] (if (Layout.ofTy t).isFixed then [] else []) = .ok []
    rw [ite_self]
    rfl
  rw [encode_eq hc rfl, hroom]
  exact ⟨_, except_map_eq_ok.2 ⟨_, except_map_eq_ok.2 ⟨[], helements, rfl⟩, rfl⟩⟩

namespace Codec

/-- **The limit on signatures in what was encoded.** D-Bus keeps it. Only a GVariant decoder refuses a signature as too
long, and only where a variant at some level holds a value whose type has such a signature. There it does refuse the
input, and for that reason unless the limit on depth is met first. -/
theorem decode_of_encode_signature_limit (c : Codec) (v : Value) (b : Array UInt8) (hv : v.isWellFormed = true)
    (h : c.encode none v = .ok b) :
    (c.format = .dbus → ∀ t ∈ v.heldTypes, t.signature.length ≤ Limits.signatureLength) ∧
      (∀ e, c.decode none b.toList v.ty = .error e → e.kind = .decode .signatureLength →
        c.format = .gvariant ∧ ∃ t ∈ v.heldTypes, Limits.signatureLength < t.signature.length) ∧
      (c.format = .gvariant → (∃ t ∈ v.heldTypes, Limits.signatureLength < t.signature.length) →
        ∃ e, c.decode none b.toList v.ty = .error e ∧
          ((∀ t ∈ v.heldTypes, (t.nesting : Int) ≤ c.maxDepth) → e.kind = .decode .signatureLength)) := by
  have hanswers := answers_decode hv h
  refine ⟨fun hf => ?_, fun e he hk => ?_, fun hf hlong => ?_⟩
  · rw [Dbus.encode_eq hf] at h
    obtain ⟨cs, hcs, -⟩ := except_map_eq_ok.1 h
    exact Dbus.length_signature_le hcs
  · obtain ⟨t, ht, d, hd, rfl⟩ := hanswers.error he
    have hk : d.kind = .signatureLength := ErrorKind.decode.inj hk
    cases hf : c.format with
    | dbus =>
      rw [readSignature_dbus hf] at hd
      rw [Dbus.kind_of_readSignature hd] at hk
      cases hk
    | gvariant =>
      rw [readSignature_gvariant hf] at hd
      exact ⟨rfl, t, ht, (Gvariant.kind_of_readSignature hd).1 hk⟩
  · obtain ⟨u, hu, hlen⟩ := hlong
    cases hr : c.decode none b.toList v.ty with
    | ok w =>
      have hback := (hanswers.ok hr).2 u hu
      rw [readSignature_gvariant hf] at hback
      exact absurd (Gvariant.signatureType_eq_ok.1 hback).2.1 (not_le.2 hlen)
    | error e =>
      refine ⟨e, rfl, fun hn => ?_⟩
      obtain ⟨t, ht, d, hd, rfl⟩ := hanswers.error hr
      rw [readSignature_gvariant hf] at hd
      obtain ⟨hform, he⟩ := Value.formed_of_mem_heldTypes v hv t ht
      have hlt : Limits.signatureLength < t.signature.length := by
        by_contra hle
        rw [Gvariant.readSignature_eq_ok hf hform he (not_lt.1 hle) (hn t ht)] at hd
        cases hd
      exact congrArg ErrorKind.decode ((Gvariant.kind_of_readSignature hd).2 hlt)

/-- A variant with a signature of 256 characters: an array of structs of 253 bytes that has no elements. -/
theorem decode_of_encode_signature_limit_array :
    let c : Codec := { format := .gvariant, order := .little }
    let v : Value := .variant (.array (.struct (List.replicate 253 .byte)) [])
    v.isWellFormed = true ∧ ∃ b, c.encode none v = .ok b ∧
      ∃ e, c.decode none b.toList v.ty = .error e ∧ e.kind = .decode .signatureLength := by
  intro c v
  have hv : v.isWellFormed = true := by decide +kernel
  have hlong : ∃ t ∈ v.heldTypes, Limits.signatureLength < t.signature.length := by decide +kernel
  obtain ⟨b, h⟩ := Gvariant.exists_encode_emptyArray (c := c) rfl (by decide) (.struct (List.replicate 253 .byte))
  obtain ⟨e, he, hk⟩ := (decode_of_encode_signature_limit c v b hv h).2.2 rfl hlong
  exact ⟨hv, b, h, e, he, hk (by decide +kernel)⟩

/-- GVariant writes a signature that is longer than the limit. -/
theorem encode_long_signature :
    let v : Value := .variant (.array (.struct (List.replicate 253 .byte)) [])
    v.isWellFormed = true ∧ (∃ t ∈ v.heldTypes, Limits.signatureLength < t.signature.length) ∧
      ∃ b, encode { format := .gvariant, order := .little } none v = .ok b :=
  ⟨by decide +kernel, by decide +kernel, Gvariant.exists_encode_emptyArray rfl (by decide) _⟩

end Codec

end Marshal
