import Mathlib.Tactic
import Marshal.Ty.Form
import Marshal.Ty.Layout
/-!
# Alignments divide sizes

Alignments divide eight, so of two of them one divides the other and a value that is aligned for a container is aligned
for each of its parts. A fixed size is a multiple of the alignment, and positive for every type that can be formed.
-/
namespace Marshal

variable {a b : Nat}

theorem padTo_lt (p : Int) (ha : 0 < a) : padTo p a < a := by
  have h := Int.emod_lt_of_pos (-p) (show (0 : Int) < a by omega)
  unfold padTo
  omega

/-- Padding does not change when the offset moves by a multiple of the alignment. -/
theorem padTo_add_of_dvd {p : Int} (h : (a : Int) ∣ p) (x : Int) : padTo (p + x) a = padTo x a := by
  obtain ⟨k, rfl⟩ := h
  rw [padTo, padTo, show -((a : Int) * k + x) = -x + a * -k by rw [mul_neg]; omega, Int.add_mul_emod_self_left]

theorem padTo_of_dvd {p : Int} (h : (a : Int) ∣ p) : padTo p a = 0 := by
  rw [padTo, Int.emod_eq_zero_of_dvd ((Int.dvd_neg).2 h), Int.toNat_zero]

theorem dvd_add_padTo (p : Int) (ha : 0 < a) : (a : Int) ∣ p + padTo p a := by
  have h0 := Int.emod_nonneg (-p) (show (a : Int) ≠ 0 by omega)
  rw [padTo, Int.toNat_of_nonneg h0]
  have h := Int.mul_ediv_add_emod (-p) a
  exact ⟨-(-p / a), by rw [mul_neg]; omega⟩

theorem le_alignUp (n a : Nat) : n ≤ alignUp n a := Nat.le_add_right _ _

theorem dvd_alignUp (n : Nat) (ha : 0 < a) : a ∣ alignUp n a := by
  have h := dvd_add_padTo (n : Int) ha
  exact_mod_cast h

theorem alignUp_of_dvd {n : Nat} (h : a ∣ n) : alignUp n a = n := by
  rw [alignUp, padTo_of_dvd (by exact_mod_cast h), Nat.add_zero]

/-! ## Divisors of eight -/

theorem pos_of_dvd_eight (h : a ∣ 8) : 0 < a := Nat.pos_of_dvd_of_pos h (by decide)

/-- The divisors of eight divide one another in the order of their size. -/
theorem dvd_of_dvd_eight (ha : a ∣ 8) (hb : b ∣ 8) (h : a ≤ b) : a ∣ b := by
  have h1 : ∀ a < 9, ∀ b < 9, a ∣ 8 → b ∣ 8 → a ≤ b → a ∣ b := by decide
  have ha8 := Nat.le_of_dvd (by decide) ha
  have hb8 := Nat.le_of_dvd (by decide) hb
  exact h1 a (by omega) b (by omega) ha hb h

theorem max_dvd_eight (ha : a ∣ 8) (hb : b ∣ 8) : max a b ∣ 8 := by
  rcases max_choice a b with h | h <;> rw [h] <;> assumption

theorem dvd_max_left (ha : a ∣ 8) (hb : b ∣ 8) : a ∣ max a b :=
  dvd_of_dvd_eight ha (max_dvd_eight ha hb) (le_max_left a b)

theorem dvd_max_right (ha : a ∣ 8) (hb : b ∣ 8) : b ∣ max a b :=
  dvd_of_dvd_eight hb (max_dvd_eight ha hb) (le_max_right a b)

theorem IntKind.width_dvd_eight (k : IntKind) : k.width ∣ 8 := by
  cases k <;> decide

namespace Basic

theorem dbusAlignment_dvd_eight (b : Basic) : b.dbusAlignment ∣ 8 := by
  cases b with
  | int k => exact k.width_dvd_eight
  | boolean => decide
  | double => decide
  | text k => cases k <;> decide

theorem gvariantAlignment_dvd_eight (b : Basic) : b.gvariantAlignment ∣ 8 := by
  cases b with
  | int k => exact k.width_dvd_eight
  | boolean => decide
  | double => decide
  | text => exact one_dvd 8

theorem gvariantAlignment_eq_fixedSize {b : Basic} {n : Nat} (h : b.fixedSize = some n) : b.gvariantAlignment = n := by
  rw [gvariantAlignment, h, Option.getD_some]

theorem fixedSize_pos {b : Basic} {n : Nat} (h : b.fixedSize = some n) : 0 < n := by
  rw [← gvariantAlignment_eq_fixedSize h]
  exact pos_of_dvd_eight b.gvariantAlignment_dvd_eight

end Basic

namespace Ty

theorem dbusAlignment?_dvd_eight : ∀ {t : Ty} {a : Nat}, t.dbusAlignment? = some a → a ∣ 8
  | .basic b, _, h => Option.some.inj h ▸ b.dbusAlignment_dvd_eight
  | .array _, _, h | .struct _, _, h | .entry _ _, _, h | .variant, _, h => by
    cases h
    decide

mutual
theorem gvariantAlignment_dvd_eight : ∀ t : Ty, t.gvariantAlignment ∣ 8
  | .basic b => b.gvariantAlignment_dvd_eight
  | .array t => by rw [gvariantAlignment]; exact gvariantAlignment_dvd_eight t
  | .maybe t => by rw [gvariantAlignment]; exact gvariantAlignment_dvd_eight t
  | .struct ts => by rw [gvariantAlignment]; exact gvariantAlignments_dvd_eight ts
  | .entry k t => by
    rw [gvariantAlignment]
    exact max_dvd_eight k.gvariantAlignment_dvd_eight (gvariantAlignment_dvd_eight t)
  | .variant => by rw [gvariantAlignment]

theorem gvariantAlignments_dvd_eight : ∀ ts : List Ty, gvariantAlignments ts ∣ 8
  | [] => by rw [gvariantAlignments]; decide
  | t :: ts => by
    rw [gvariantAlignments]
    exact max_dvd_eight (gvariantAlignment_dvd_eight t) (gvariantAlignments_dvd_eight ts)
end

theorem gvariantAlignment_pos (t : Ty) : 0 < t.gvariantAlignment := pos_of_dvd_eight t.gvariantAlignment_dvd_eight

theorem alignment_pos_of_mem {ts : List Ty} : ∀ l ∈ ts.map Layout.ofTy, 0 < l.alignment := by
  intro l hl
  obtain ⟨t, -, rfl⟩ := List.mem_map.1 hl
  exact t.gvariantAlignment_pos

/-- **A struct is aligned for each of its members.** -/
theorem dvd_gvariantAlignments {t : Ty} : ∀ {ts : List Ty}, t ∈ ts → t.gvariantAlignment ∣ gvariantAlignments ts
  | u :: ts, h => by
    rw [gvariantAlignments]
    have hu := u.gvariantAlignment_dvd_eight
    have hts := gvariantAlignments_dvd_eight ts
    rcases List.mem_cons.1 h with rfl | h
    · exact dvd_max_left hu hts
    · exact (dvd_gvariantAlignments h).trans (dvd_max_right hu hts)

/-- A fixed size is a multiple of the alignment, so that elements of it follow one another without padding. -/
theorem gvariantAlignment_dvd_fixedSize : ∀ {t : Ty} {n : Nat}, t.fixedSize = some n → t.gvariantAlignment ∣ n
  | .basic b, n, h => by
    rw [fixedSize] at h
    rw [gvariantAlignment, Basic.gvariantAlignment_eq_fixedSize h]
  | .struct ts, n, h => by
    rw [fixedSize, Option.map_eq_some_iff] at h
    obtain ⟨stop, -, rfl⟩ := h
    rw [gvariantAlignment]
    exact dvd_alignUp stop (pos_of_dvd_eight (gvariantAlignments_dvd_eight ts))
  | .entry k t, n, h => by
    rw [fixedSize] at h
    split at h
    · cases h
      rw [gvariantAlignment]
      exact dvd_alignUp _ (pos_of_dvd_eight (max_dvd_eight k.gvariantAlignment_dvd_eight t.gvariantAlignment_dvd_eight))
    · cases h
  | .array _, _, h | .variant, _, h | .maybe _, _, h => by
    rw [fixedSize] at h
    cases h

theorem le_fixedSizes : ∀ {ts : List Ty} {p e : Nat}, fixedSizes p ts = some e → p ≤ e
  | [], p, e, h => by
    rw [fixedSizes] at h
    exact (Option.some.inj h).le
  | t :: ts, p, e, h => by
    rw [fixedSizes] at h
    split at h
    · rename_i n _
      have h1 := le_fixedSizes h
      have h2 := le_alignUp p t.gvariantAlignment
      omega
    · cases h

theorem fixedSize_pos : ∀ {t : Ty} {n : Nat}, t.isFormed = true → t.fixedSize = some n → 0 < n
  | .basic b, n, _, h => by
    rw [fixedSize] at h
    exact Basic.fixedSize_pos h
  | .struct [], n, hf, _ => by simp [isFormed] at hf
  | .struct (t :: ts), n, hf, h => by
    rw [fixedSize, Option.map_eq_some_iff] at h
    obtain ⟨stop, h, rfl⟩ := h
    rw [fixedSizes] at h
    split at h
    · rename_i m hm
      simp only [isFormed, areMembers, Bool.and_eq_true] at hf
      have h1 := fixedSize_pos hf.1.2.1.1 hm
      have h2 := le_fixedSizes h
      have h3 := le_alignUp stop (gvariantAlignments (t :: ts))
      omega
    · cases h
  | .entry k t, n, _, h => by
    rw [fixedSize] at h
    split at h
    · rename_i m l hk ht
      cases h
      have h1 := Basic.fixedSize_pos hk
      have h2 := le_alignUp m t.gvariantAlignment
      have h3 := le_alignUp (alignUp m t.gvariantAlignment + l) (max k.gvariantAlignment t.gvariantAlignment)
      omega
    · cases h
  | .array _, _, _, h | .variant, _, _, h | .maybe _, _, _, h => by
    rw [fixedSize] at h
    cases h

/-! A dict entry is laid out like a struct of its key and its value. -/

theorem gvariantAlignment_entry (k : Basic) (t : Ty) :
    (Ty.entry k t).gvariantAlignment = (Ty.struct [.basic k, t]).gvariantAlignment := by
  have h : max t.gvariantAlignment 1 = t.gvariantAlignment := max_eq_left (Nat.succ_le_of_lt t.gvariantAlignment_pos)
  simp only [gvariantAlignment, gvariantAlignments, h]

theorem fixedSize_entry (k : Basic) (t : Ty) : (Ty.entry k t).fixedSize = (Ty.struct [.basic k, t]).fixedSize := by
  have h0 : alignUp 0 k.gvariantAlignment = 0 := alignUp_of_dvd (Nat.dvd_zero _)
  have h : max t.gvariantAlignment 1 = t.gvariantAlignment := max_eq_left (Nat.succ_le_of_lt t.gvariantAlignment_pos)
  simp only [fixedSize, fixedSizes, gvariantAlignment, gvariantAlignments, h]
  cases k.fixedSize with
  | none => rfl
  | some m => cases t.fixedSize <;> simp [h0]

end Ty

end Marshal
