import Marshal.Proofs.Composition
import Marshal.Proofs.Dbus.Layout
/-!
# Where a D-Bus value stands

The position of a value matters for nothing but padding, and alignments divide eight. So a value is laid out in the same
way wherever positions agree modulo eight, and fails in the same way. A value is written behind what is there: the one
place that is written over is that of an array's length, and it is part of the value.
-/
namespace Marshal

namespace Cell

variable {n : Nat} {α : Type}

theorem follow_add {f g : Nat → Except Error (List Cell)} (hf : ∀ p, f (n + p) = f p) (hg : ∀ p, g (n + p) = g p)
    (p : Nat) : follow f g (n + p) = follow f g p := by
  rw [follow, follow, hf]
  refine congrArg _ (funext fun cs => ?_)
  rw [Nat.add_assoc, hg]

theorem inTurn_add {f : Nat → α → Except Error (List Cell)} : ∀ {xs : List α}, (∀ x ∈ xs, ∀ p, f (n + p) x = f p x) →
    ∀ p, inTurn f (n + p) xs = inTurn f p xs
  | [], _, _ => rfl
  | x :: xs, h, p => by
    obtain ⟨h1, h2⟩ := List.forall_mem_cons.1 h
    rw [inTurn, inTurn]
    exact follow_add h1 (inTurn_add h2) p

end Cell

namespace Dbus

open Cell Put

variable {n : Nat}

theorem padTo_add_of_eight_dvd (h : 8 ∣ n) {a : Nat} (ha : a ∣ 8) (p : Nat) : padTo (n + p : Nat) a = padTo p a := by
  rw [Nat.cast_add, padTo_add_of_dvd (Int.natCast_dvd_natCast.2 (ha.trans h))]

theorem arrayCells_add (h : 8 ∣ n) {c : Codec} {f : Nat → Value → Except Error (List Cell)} (t : Ty)
    {items : List Value} (hf : ∀ v ∈ items, ∀ p, f (n + p) v = f p v) (p : Nat) :
    arrayCells c f t items (n + p) = arrayCells c f t items p := by
  rw [arrayCells, arrayCells]
  cases ha : alignment t with
  | error e => rfl
  | ok a =>
    have hgap := padTo_add_of_eight_dvd h (alignment_dvd_eight ha) (p + lengthWidth)
    simp only [Nat.add_assoc, bind, Except.bind] at hgap ⊢
    rw [hgap, inTurn_add hf]

/-- **A value is laid out in the same way a multiple of eight further on.** -/
theorem cells_add_of_dvd (h : 8 ∣ n) (c : Codec) : ∀ (room p : Nat) (v : Value),
    cells c room (n + p) v = cells c room p v
  | 0, _, _ => rfl
  | room + 1, p, v => by
    have ih := fun (v : Value) p => cells_add_of_dvd h c room p v
    rw [cells, cells]
    cases ha : alignment v.ty with
    | error e => rfl
    | ok a =>
      have hpad := padTo_add_of_eight_dvd h (alignment_dvd_eight ha)
      refine follow_add (f := fun p => .ok (blank (padTo p a))) (fun q => by rw [hpad]) (fun q => ?_) p
      cases v with
      | scalar s => rfl
      | array t items => exact arrayCells_add h t (fun v _ => ih v) q
      | struct members => exact inTurn_add (fun v _ => ih v) q
      | entry k w => exact follow_add (f := (cells c room · (.scalar k))) (g := (cells c room · w)) (ih _) (ih w) q
      | variant w =>
        let text := (signatureBytes true w.ty.signature).map given
        exact follow_add (f := fun _ => text) (g := (cells c room · w)) (fun _ => rfl) (ih w) q
      | nothing t => rfl
      | just w => rfl

/-- So only the position modulo eight matters. -/
theorem cells_mod_eight (c : Codec) (room p : Nat) (v : Value) : cells c room p v = cells c room (p % 8) v := by
  conv_lhs => rw [← Nat.div_add_mod p 8]
  exact cells_add_of_dvd (Nat.dvd_mul_right 8 _) c room _ v

/-- **What is written for a value depends on the position modulo eight only, and stands behind what was there.** Behind
bytes of lengths that agree modulo eight the same bytes are added, or the error is the same; and whether writing a value
succeeds or fails, and whatever caps there are, the bytes that were there are still there. -/
theorem put_appends (c : Codec) (d : Int) (v : Value) :
    (∀ pre₁ pre₂ : Array UInt8, pre₁.size % 8 = pre₂.size % 8 →
      (∃ bs : List UInt8, put c (c.roomAt d) v ⟨pre₁, []⟩ = .ok () ⟨pre₁ ++ bs, []⟩ ∧
        put c (c.roomAt d) v ⟨pre₂, []⟩ = .ok () ⟨pre₂ ++ bs, []⟩) ∨
      ∃ e s₁ s₂, put c (c.roomAt d) v ⟨pre₁, []⟩ = .error e s₁ ∧ put c (c.roomAt d) v ⟨pre₂, []⟩ = .error e s₂) ∧
    ∀ s, s.bytes.toList <+: (reached (put c (c.roomAt d) v s)).bytes.toList := by
  have hlays := lays_put c (c.roomAt d) v
  refine ⟨fun pre₁ pre₂ hmod => ?_, fun s => (composed_put s.bytes.size c _ v).isPrefix⟩
  have hsame : cells c (c.roomAt d) pre₂.size v = cells c (c.roomAt d) pre₁.size v := by
    rw [cells_mod_eight, cells_mod_eight (p := pre₁.size), hmod]
  cases hcells : cells c (c.roomAt d) pre₁.size v with
  | ok cs => exact .inl ⟨render cs, hlays.apply_of_ok pre₁ hcells, hlays.apply_of_ok pre₂ (hsame.trans hcells)⟩
  | error e =>
    obtain ⟨s₁, h1⟩ := hlays.apply_of_error pre₁ hcells
    obtain ⟨s₂, h2⟩ := hlays.apply_of_error pre₂ (hsame.trans hcells)
    exact .inr ⟨e, s₁, s₂, h1, h2⟩

/-- An array behind three bytes and behind eleven, and behind a cap that refuses its second element. -/
theorem put_appends_array :
    let c : Codec := ⟨.dbus, .little, 64, 64⟩
    let v : Value := .array (.basic (.int .int16)) [.scalar (.int .int16 1), .scalar (.int .int16 2)]
    let pre₁ : Array UInt8 := #[1, 2, 3]
    let pre₂ : Array UInt8 := #[11, 10, 9, 8, 7, 6, 5, 4, 3, 2, 1]
    pre₁.size % 8 = pre₂.size % 8 ∧
      (∃ bs : List UInt8, put c (c.roomAt 3) v ⟨pre₁, []⟩ = .ok () ⟨pre₁ ++ bs, []⟩ ∧
        put c (c.roomAt 3) v ⟨pre₂, []⟩ = .ok () ⟨pre₂ ++ bs, []⟩) ∧
      pre₁.toList <+: (reached (put c (c.roomAt 3) v ⟨pre₁, [Cap.new 8]⟩)).bytes.toList := by
  intro c v pre₁ pre₂
  obtain ⟨hsame, hkept⟩ := put_appends c 3 v
  have hmod : pre₁.size % 8 = pre₂.size % 8 := by decide
  have hput : put c (c.roomAt 3) v ⟨pre₁, []⟩ = .ok () ⟨#[1, 2, 3, 0, 4, 0, 0, 0, 1, 0, 2, 0], []⟩ := by
    simp only [c, v, pre₁]
    rfl
  refine ⟨hmod, (hsame pre₁ pre₂ hmod).resolve_right ?_, hkept ⟨pre₁, [Cap.new 8]⟩⟩
  rintro ⟨e, s₁, s₂, h, -⟩
  rw [hput] at h
  cases h

end Dbus

end Marshal
