import Mathlib.Tactic
import Marshal.Wire.Integer
/-!
# Integers and their bytes are in bijection

`digits` and `ofDigits` are inverse to one another below `256 ^ width` (`ofDigits_digits`, `digits_ofDigits`). From them
a number that the format can hold is read back from its bytes (`decode_of_encode?`), and any bytes of the right number
are those of the number read from them (`encode?_decode`).
-/
namespace Marshal

namespace ByteOrder

@[simp] theorem length_arrange (o : ByteOrder) (bs : List UInt8) : (o.arrange bs).length = bs.length := by
  cases o <;> simp [arrange]

end ByteOrder

namespace Integer

@[simp] theorem length_digits : ∀ (w n : Nat), (digits w n).length = w
  | 0, _ => rfl
  | w + 1, n => by rw [digits, List.length_cons, length_digits w]

theorem ofDigits_lt : ∀ bs : List UInt8, ofDigits bs < 256 ^ bs.length
  | [] => by simp [ofDigits]
  | b :: bs => by
    have h := ofDigits_lt bs
    have hb := b.toNat_lt
    rw [ofDigits, List.length_cons, Nat.pow_succ]
    omega

/-- **The bytes of a number give it back, modulo what they can hold.** -/
theorem ofDigits_digits : ∀ (w n : Nat), ofDigits (digits w n) = n % 256 ^ w
  | 0, n => by rw [digits, ofDigits, Nat.pow_zero, Nat.mod_one]
  | w + 1, n => by
    have hb : (UInt8.ofNat (n % 256)).toNat = n % 256 := by simp
    rw [digits, ofDigits, hb, ofDigits_digits w, Nat.pow_succ, Nat.mul_comm (256 ^ w), Nat.mod_mul]

theorem ofDigits_digits_of_lt {w n : Nat} (h : n < 256 ^ w) : ofDigits (digits w n) = n := by
  rw [ofDigits_digits, Nat.mod_eq_of_lt h]

/-- **Any bytes are those of the number they stand for.** -/
theorem digits_ofDigits : ∀ bs : List UInt8, digits bs.length (ofDigits bs) = bs
  | [] => rfl
  | b :: bs => by
    have hb := b.toNat_lt
    have hm : (b.toNat + 256 * ofDigits bs) % 256 = b.toNat := by omega
    have hd : (b.toNat + 256 * ofDigits bs) / 256 = ofDigits bs := by omega
    rw [List.length_cons, digits, ofDigits, hm, hd, digits_ofDigits bs, UInt8.ofNat_toNat]

/-- Twice the half of the range of signed numbers is the whole range. -/
theorem two_mul_pow_half {w : Nat} (h : 0 < w) : (2 : Int) * 2 ^ (8 * w - 1) = 256 ^ w := by
  have h1 : 8 * w = (8 * w - 1) + 1 := by omega
  rw [show (256 : Int) = 2 ^ 8 by decide, ← pow_mul, h1, pow_succ, Nat.add_sub_cancel, mul_comm]

theorem pow_eight_mul (w : Nat) : (2 : Int) ^ (8 * w) = 256 ^ w := by
  rw [show (256 : Int) = 2 ^ 8 by decide, ← pow_mul]

/-- What fits where there are no signs. -/
theorem fits_natCast_iff {w n : Nat} : Fits w false n ↔ n < 256 ^ w := by
  simp only [Fits, least, bound, Bool.false_eq_true, if_false, pow_eight_mul]
  constructor
  · rintro ⟨-, h⟩
    exact_mod_cast h
  · intro h
    exact ⟨by omega, by exact_mod_cast h⟩

theorem encode?_eq_none_iff {f : Format} {n : Int} : encode? f n = none ↔ ¬ Fits f.width f.signed n := by
  unfold encode?
  split <;> simp_all

theorem encode?_eq_some_iff {f : Format} {n : Int} {bs : List UInt8} :
    encode? f n = some bs ↔
      Fits f.width f.signed n ∧ bs = f.order.arrange (digits f.width (n % 256 ^ f.width).toNat) := by
  unfold encode?
  split
  · rename_i h
    simp [h, eq_comm]
  · rename_i h
    simp [h]

theorem length_of_encode? {f : Format} {n : Int} {bs : List UInt8} (h : encode? f n = some bs) :
    bs.length = f.width := by
  obtain ⟨-, rfl⟩ := encode?_eq_some_iff.1 h
  simp

/-- The residue that stands for a number has as many bytes as the format. -/
theorem toNat_emod_lt (w : Nat) (n : Int) : (n % 256 ^ w).toNat < 256 ^ w := by
  have hp : (0 : Int) < 256 ^ w := by positivity
  rw [Int.toNat_lt (Int.emod_nonneg n hp.ne')]
  exact_mod_cast Int.emod_lt_of_pos n hp

/-- **A number is read back from its bytes.** -/
theorem decode_of_encode? {f : Format} {n : Int} {bs : List UInt8} (hw : 0 < f.width) (h : encode? f n = some bs) :
    decode f bs = n := by
  obtain ⟨hf, rfl⟩ := encode?_eq_some_iff.1 h
  obtain ⟨h1, h2⟩ := hf
  have hp : (0 : Int) < 256 ^ f.width := by positivity
  have hr := Int.emod_nonneg n hp.ne'
  simp only [decode, ByteOrder.arrange_arrange, ofDigits_digits_of_lt (toNat_emod_lt f.width n),
    ByteOrder.length_arrange, length_digits, Int.toNat_of_nonneg hr]
  have hhalf := two_mul_pow_half hw
  rw [least, bound] at *
  cases hs : f.signed with
  | false =>
    simp only [hs, Bool.false_eq_true, if_false, false_and, pow_eight_mul] at h1 h2 ⊢
    exact Int.emod_eq_of_lt h1 h2
  | true =>
    simp only [hs, if_true, true_and] at h1 h2 ⊢
    have hcast : (256 ^ f.width ≤ 2 * (n % 256 ^ f.width).toNat) ↔
        (256 : Int) ^ f.width ≤ 2 * (n % 256 ^ f.width) := by
      rw [← Int.toNat_of_nonneg hr, Int.toNat_natCast]; exact_mod_cast Iff.rfl
    by_cases hn : 0 ≤ n
    · have hmod : n % 256 ^ f.width = n := Int.emod_eq_of_lt hn (by omega)
      rw [if_neg (by rw [hcast, hmod]; omega), hmod]
    · have hmod : n % 256 ^ f.width = n + 256 ^ f.width := by
        rw [← Int.add_emod_right, Int.emod_eq_of_lt (by omega) (by omega)]
      rw [if_pos (by rw [hcast, hmod]; omega), hmod]
      omega

/-- **Any bytes of the right number are those of the number read from them.** -/
theorem encode?_decode {f : Format} {bs : List UInt8} (hw : 0 < f.width) (h : bs.length = f.width) :
    encode? f (decode f bs) = some bs := by
  have hlt : ofDigits (f.order.arrange bs) < 256 ^ f.width := by
    have := ofDigits_lt (f.order.arrange bs)
    rwa [ByteOrder.length_arrange, h] at this
  have hlt' : (ofDigits (f.order.arrange bs) : Int) < 256 ^ f.width := by exact_mod_cast hlt
  have hback : f.order.arrange (digits f.width (ofDigits (f.order.arrange bs))) = bs := by
    have := digits_ofDigits (f.order.arrange bs)
    rw [ByteOrder.length_arrange, h] at this
    rw [this, ByteOrder.arrange_arrange]
  have hhalf := two_mul_pow_half hw
  have hfull := pow_eight_mul f.width
  have hmod : decode f bs % 256 ^ f.width = (ofDigits (f.order.arrange bs) : Int) := by
    simp only [decode, h]
    split
    · rw [← Int.add_emod_right, Int.sub_add_cancel, Int.emod_eq_of_lt (by positivity) hlt']
    · rw [Int.emod_eq_of_lt (by positivity) hlt']
  refine encode?_eq_some_iff.2 ⟨?_, by rw [hmod, Int.toNat_natCast, hback]⟩
  simp only [decode, h, Fits, least, bound]
  cases hs : f.signed with
  | false => simp only [Bool.false_eq_true, if_false, false_and]; omega
  | true =>
    have hcast : (256 ^ f.width ≤ 2 * ofDigits (f.order.arrange bs)) ↔
        (256 : Int) ^ f.width ≤ 2 * (ofDigits (f.order.arrange bs) : Int) := by exact_mod_cast Iff.rfl
    simp only [if_true, true_and]
    split
    · rename_i hge
      rw [hcast] at hge
      omega
    · rename_i hge
      rw [hcast] at hge
      omega

end Integer

end Marshal
