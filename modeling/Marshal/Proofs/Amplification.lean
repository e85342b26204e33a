import Marshal.Proofs.Dbus.Parts
import Marshal.Proofs.Formation
import Marshal.Proofs.Gvariant.Parts
import Marshal.Proofs.Limits
/-!
# Decoding takes no more than its input warrants

A short input cannot make a decoder loop or build a long array. In D-Bus that is so because every value takes a byte or
more, so that a loop over elements makes progress. In GVariant an element may take no bytes at all, and the frame of an
array bounds its elements instead. Either way each array is bounded by the bytes of its own encoding, at every level of
a value and also in variants.
-/
namespace Marshal.Codec

theorem unamplified_of_decode {c : Codec} {cap : Option Int} {data : List UInt8} {t : Ty} {v : Value}
    (ht : t.isFormed = true) (h : c.decode cap data t = .ok v) : c.Unamplified c.room 0 data v := by
  have hcap : Cap.Within cap none := nofun
  have hfree := decode_of_within ⟨rfl, rfl, le_rfl, le_rfl⟩ hcap h
  cases hc : c.format with
  | dbus =>
    rw [Dbus.decode_eq hc] at hfree
    obtain ⟨hty, -⟩ := (Dbus.finds_reads hc ht c.room 0).of_run hfree
    exact (Dbus.unamplified_of_run hc ht 0 data v hty (fun a _ => dvd_zero _) hfree).1
  | gvariant =>
    rw [Gvariant.decode_eq hc] at hfree
    exact Gvariant.unamplified_of_inside hc c.room t 0 data v (dvd_zero _) hfree

/-- **Decoding makes progress, and arrays are not amplified.** Reading a D-Bus value takes bytes from the front, one at
least, so a loop over elements ends after no more iterations than there are bytes up to where it stops. In both formats
every array in a decoded value has no more elements than its own encoding has bytes. -/
theorem decode_bounded_by_input (c : Codec) {t : Ty} (ht : t.Constructed) :
    (∀ room s v s', Dbus.get c room t s = .ok v s' →
        ∃ taken, taken ≠ [] ∧ s.rest = taken ++ s'.rest ∧ s'.position = s.position + taken.length) ∧
      (∀ (room length : Nat) (s : Source), ∃ m ≤ length, ∀ n r,
        Dbus.Loops (s.position + length) (Dbus.get c room t) [] s n r ↔
          n = m ∧ r = Dbus.getUntil (s.position + length) (Dbus.get c room t) length [] s) ∧
      ∀ cap data v, c.decode cap data t = .ok v → c.Unamplified c.room 0 data v := by
  have htf := Ty.constructed_iff.1 ht
  refine ⟨fun room s v s' h => ?_, fun room length s => ?_, fun cap data v => unamplified_of_decode htf⟩
  · obtain ⟨taken, hrest, hposition, hpos⟩ := Dbus.advances_get c room htf h
    exact ⟨taken, List.length_pos_iff.1 hpos, hrest, hposition⟩
  · obtain ⟨m, hm, hloop⟩ := Dbus.exists_loops (Dbus.advances_get c room htf) [] le_rfl
    refine ⟨m, hm, fun n r => ⟨fun h => h.unique hloop, ?_⟩⟩
    rintro ⟨rfl, rfl⟩
    exact hloop

/-- Three elements that take no bytes, in three bytes of offsets; in D-Bus an array of two bytes in a variant. -/
theorem decode_bounded_by_input_empty :
    let g : Codec := { format := .gvariant, order := .little }
    let d : Codec := { format := .dbus, order := .little }
    let nothings : Value := .array (.maybe .byte) [.nothing .byte, .nothing .byte, .nothing .byte]
    let bytes : Value := .variant (.array .byte [.scalar (.int .byte 5), .scalar (.int .byte 6)])
    (Ty.array (.maybe .byte)).Constructed ∧ g.decode none [0, 0, 0] (.array (.maybe .byte)) = .ok nothings ∧
      g.Unamplified g.room 0 [0, 0, 0] nothings ∧ Ty.variant.Constructed ∧
      d.decode none [2, 97, 121, 0, 2, 0, 0, 0, 5, 6] .variant = .ok bytes ∧
      d.Unamplified d.room 0 [2, 97, 121, 0, 2, 0, 0, 0, 5, 6] bytes := by
  intro g d nothings bytes
  have hg : g.decode none [0, 0, 0] (.array (.maybe .byte)) = .ok nothings := by
    simp only [g, nothings]
    rfl
  have hd : d.decode none [2, 97, 121, 0, 2, 0, 0, 0, 5, 6] .variant = .ok bytes := by
    simp only [d, bytes]
    rfl
  have ht : (Ty.array (.maybe .byte)).Constructed := Ty.constructed_iff.2 rfl
  exact ⟨ht, hg, (decode_bounded_by_input g ht).2.2 _ _ _ hg, .variant, hd,
    (decode_bounded_by_input d .variant).2.2 _ _ _ hd⟩

end Marshal.Codec
