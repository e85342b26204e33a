import Marshal.Proofs.Framing.Coverage
import Marshal.Proofs.Gvariant.Canonical
import Marshal.Proofs.Parts
/-!
# The parts of a GVariant value

A child of a container is read from its window, and windows follow one another, so every part has bytes of its own,
which may be none. That an array has no more elements than bytes follows from the bytes of its frame instead: elements
of a fixed size have one byte or more, and any other element has an offset, which has.
-/
namespace Marshal.Gvariant

open Framing Get

variable {c : Codec} {room : Nat} {p : Int} {bs : List UInt8} {t : Ty} {v : Value}
  {P : Int → List UInt8 → Value → Prop}

/-- **A frame has no more elements than the array has bytes.** -/
theorem count_le_of_frame {fixedSize : Option Nat} {f : CollectionFrame} (h : frame bs.toArray fixedSize = .ok f) :
    f.count ≤ bs.length := by
  cases fixedSize with
  | some n =>
    obtain ⟨m, rfl, hsize, hzero⟩ := frame_fixed_eq_ok.1 h
    cases n with
    | zero => exact (hzero rfl).trans_le (Nat.zero_le _)
    | succ n => exact hsize ▸ Nat.le_mul_of_pos_right m n.succ_pos
  | none =>
    by_cases h0 : bs = []
    · subst h0
      cases h
      exact le_rfl
    · obtain ⟨hwidth, hsize, -⟩ := (frame_variable_eq_ok h0).1 h
      have hpos : 0 < f.offsetWidth := hwidth ▸ offsetWidth_pos (List.length_pos_iff.2 h0)
      have hle := Nat.le_mul_of_pos_left f.count hpos
      omega

/-- What is known of children that were read where they are aligned. -/
def ReadsParts (c : Codec) (room : Nat) (P : Int → List UInt8 → Value → Prop) : Prop :=
  ∀ (t : Ty) (p : Int) (bs : List UInt8) (v : Value), (t.gvariantAlignment : Int) ∣ p →
    inside p bs (get c room t) = .ok v → P p bs v

theorem parts_of_getElements (hget : ReadsParts c room P) {items : List Value} (hp : (t.gvariantAlignment : Int) ∣ p)
    (h : run (getElements (Layout.ofTy t) (get c room t)) ⟨p, bs, []⟩ = .ok items) :
    Parts P p bs items ∧ items.length ≤ bs.length := by
  obtain ⟨ws, hws, hitems⟩ := run_getElements_eq_ok.1 h
  have hl : 0 < (Layout.ofTy t).alignment := t.gvariantAlignment_pos
  obtain ⟨htiled, hle, -⟩ := tiled_of_elementWindows hl (fun n hn => Ty.gvariantAlignment_dvd_fixedSize hn) hws
  have hread := ((List.forall₂_and_left _ _).2 ⟨dvd_start_of_elementWindows hws, hitems⟩).imp fun w v h =>
    hget _ _ _ _ (Int.dvd_add hp (Int.natCast_dvd_natCast.2 h.1)) h.2
  obtain ⟨f, hf, hmapM⟩ := except_bind_eq_ok.1 hws
  refine ⟨htiled.parts hle hread, ?_⟩
  rw [← hitems.length_eq, ← (mapM_eq_ok_iff.1 hmapM).length_eq, List.length_range]
  exact count_le_of_frame hf

theorem parts_of_getMembers (hget : ReadsParts c room P) {ts : List Ty} {members : List Value}
    (hp : (Ty.gvariantAlignments ts : Int) ∣ p) (h : run (getMembers (get c room) ts) ⟨p, bs, []⟩ = .ok members) :
    Parts P p bs members := by
  obtain ⟨ws, hws, hmembers⟩ := run_getMembers_eq_ok.1 h
  have hne : ts.map Layout.ofTy ≠ [] := by
    intro hnil
    rw [hnil] at hws
    cases hws
  obtain ⟨htiled, hcloses⟩ := (windows_eq_ok hne Ty.alignment_pos_of_mem).1 hws
  have hzip := ((List.forall₂_and_left _ _).2 ⟨dvd_add_start_of_windows hp hws, hmembers⟩).imp fun m v h =>
    hget _ _ _ _ h.1 h.2
  have hread : List.Forall₂ (fun (w : Window) v => P (p + w.start) (w.slice bs) v) ws members := by
    rw [← List.map_fst_zip (dvd_start_of_windows hws).length_eq.ge]
    exact List.forall₂_map_left_iff.2 hzip
  exact htiled.parts hcloses.lastStop_le hread

/-- **Every part of a GVariant value has bytes of its own**, and an array has no more elements than that. -/
theorem unamplified_of_inside (hc : c.format = .gvariant) : ∀ room, ReadsParts c room (c.Unamplified room)
  | 0, _, _, _, _, _, h => absurd h run_fail
  | room + 1, t, p, bs, v, hp, h => by
    have hget := unamplified_of_inside hc room
    have hencodes : c.Encodes (room + 1) p bs v := by
      obtain rfl := (readFrom c (room + 1) t p bs v hp h).ty
      constructor
      · rw [Codec.alignment?, hc]
        rintro _ ⟨⟩
        exact hp
      · rw [Codec.getIn, hc]
        exact h
    cases t with
    | basic b =>
      obtain ⟨s, rfl, -⟩ := inside_basic hp h
      exact ⟨hencodes, nofun, .nil⟩
    | array t =>
      obtain ⟨items, hitems, rfl⟩ := (inside_array_eq_ok hp).1 h
      rw [Ty.gvariantAlignment] at hp
      obtain ⟨hparts, hle⟩ := parts_of_getElements hget hp hitems
      refine ⟨hencodes, ?_, hparts⟩
      rintro _ _ ⟨⟩
      exact hle
    | struct ts =>
      obtain ⟨members, hmembers, rfl⟩ := (inside_struct_eq_ok hp).1 h
      rw [Ty.gvariantAlignment] at hp
      exact ⟨hencodes, nofun, parts_of_getMembers hget hp hmembers⟩
    | entry k t =>
      obtain ⟨members, hmembers, rfl⟩ := (inside_entry_eq_ok hp).1 h
      rw [Ty.gvariantAlignment_entry, Ty.gvariantAlignment] at hp
      obtain ⟨htys, -⟩ := readFrom_members (readFrom c room) hp hmembers
      obtain ⟨s, w, rfl, -, -⟩ := eq_of_tys_entry htys
      exact ⟨hencodes, nofun, parts_of_getMembers hget hp hmembers⟩
    | variant =>
      obtain ⟨value, signature, t, w, hsplit, -, hinside, rfl⟩ := (inside_variant_eq_ok hp).1 h
      obtain ⟨rfl, -⟩ := splitVariant_eq_some_iff.1 hsplit
      have hw : (t.gvariantAlignment : Int) ∣ p :=
        Int.dvd_trans (Int.natCast_dvd_natCast.2 t.gvariantAlignment_dvd_eight) hp
      exact ⟨hencodes, nofun, .front (hget t p value w hw hinside)⟩
    | maybe t =>
      rcases (inside_maybe_eq_ok hp).1 h with ⟨rfl, rfl⟩ | ⟨-, content, w, rfl, hinside, rfl⟩
      · exact ⟨hencodes, nofun, .nil⟩
      · rw [Ty.gvariantAlignment] at hp
        exact ⟨hencodes, nofun, .front (hget t p content w hp hinside)⟩

end Marshal.Gvariant
