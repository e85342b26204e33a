import Mathlib.Tactic
import Marshal.Text.Utf8
/-!
# Reading UTF-8 accepts exactly what writing it gives

`decode_encode` is the one direction, `encode_of_decode` the other: there is one spelling of every sequence of
characters. The lead byte of a character tells how many bytes follow and where the first of them may lie
(`lead_three`, `lead_four`), so both directions are about one character at a time.
-/
namespace Marshal.Utf8

/-! ## The machine on one character -/

theorem toNat_ofNat_of_lt {n : Nat} (h : n < 256) : (UInt8.ofNat n).toNat = n := UInt8.toNat_ofNat_of_lt' h

theorem toNat_tail (n : Nat) : (tail n).toNat = 0x80 + n % 0x40 := by
  rw [tail, toNat_ofNat_of_lt (by omega)]

/-- `encodePoint` over plain numbers. -/
theorem encodePoint_eq (n : Nat) :
    encodePoint n =
      if n < 0x80 then [UInt8.ofNat n]
      else if n < 0x800 then [UInt8.ofNat (0xC0 + n / 0x40), tail n]
      else if n < 0x10000 then [UInt8.ofNat (0xE0 + n / 0x1000), tail (n / 0x40), tail n]
      else [UInt8.ofNat (0xF0 + n / 0x40000), tail (n / 0x1000), tail (n / 0x40), tail n] := rfl

theorem lead_one {b : Nat} (h : b < 0x80) : lead b = .ok (.emit b) := by
  rw [lead, if_pos h]

theorem lead_two {b : Nat} (h1 : 0xC2 ≤ b) (h2 : b < 0xE0) :
    lead b = .ok (.goto (.owing 0 0x80 0xBF (b - 0xC0))) := by
  rw [lead, if_neg (by omega), if_neg (by omega), if_pos h2]

/-- The range of the byte after the lead byte of three, which leaves out overlong forms and surrogates. -/
theorem lead_three {b : Nat} (h1 : 0xE0 ≤ b) (h2 : b < 0xF0) :
    lead b = .ok (.goto (.owing 1 (if b = 0xE0 then 0xA0 else 0x80) (if b = 0xED then 0x9F else 0xBF) (b - 0xE0))) := by
  rw [lead, if_neg (by omega), if_neg (by omega), if_neg (by omega)]
  by_cases hE : b = 0xE0
  · subst hE
    rfl
  · rw [if_neg hE, if_neg hE]
    by_cases hD : b = 0xED
    · subst hD
      rfl
    · rw [if_neg hD, if_neg hD, if_pos h2]

/-- The range of the byte after the lead byte of four, which leaves out overlong forms and what is past the last code
point. -/
theorem lead_four {b : Nat} (h1 : 0xF0 ≤ b) (h2 : b ≤ 0xF4) :
    lead b = .ok (.goto (.owing 2 (if b = 0xF0 then 0x90 else 0x80) (if b = 0xF4 then 0x8F else 0xBF) (b - 0xF0))) := by
  rw [lead, if_neg (by omega), if_neg (by omega), if_neg (by omega), if_neg (by omega), if_neg (by omega),
    if_neg (by omega)]
  by_cases h0 : b = 0xF0
  · subst h0
    rfl
  · rw [if_neg h0, if_neg h0]
    by_cases h4 : b = 0xF4
    · subst h4
      rfl
    · rw [if_pos (by omega), if_neg h4]

/-- The bytes that start no character. -/
theorem lead_none {b : Nat} (h : 0x80 ≤ b ∧ b < 0xC2 ∨ 0xF4 < b) : lead b = .error .start := by
  unfold lead
  rcases h with h | h
  · rw [if_neg (by omega), if_pos h.2]
  · rw [if_neg (by omega), if_neg (by omega), if_neg (by omega), if_neg (by omega), if_neg (by omega),
      if_neg (by omega), if_neg (by omega), if_neg (by omega), if_neg (by omega)]

theorem run_idle_emit {b : UInt8} {n : Nat} (h : lead b.toNat = .ok (.emit n)) (seen : List Char) (bs : List UInt8) :
    run .idle seen (b :: bs) = run .idle (Char.ofNat n :: seen) bs := by
  rw [run, step, h]

theorem run_idle_goto {b : UInt8} {s : State} (h : lead b.toNat = .ok (.goto s)) (seen : List Char)
    (bs : List UInt8) : run .idle seen (b :: bs) = run s seen bs := by
  rw [run, step, h]

theorem run_owing_zero {low high bits : Nat} {b : UInt8} (h : low ≤ b.toNat ∧ b.toNat ≤ high) (seen : List Char)
    (bs : List UInt8) :
    run (.owing 0 low high bits) seen (b :: bs) =
      run .idle (Char.ofNat (bits * 0x40 + (b.toNat - 0x80)) :: seen) bs := by
  rw [run, step, if_pos h]

theorem run_owing_succ {n low high bits : Nat} {b : UInt8} (h : low ≤ b.toNat ∧ b.toNat ≤ high) (seen : List Char)
    (bs : List UInt8) :
    run (.owing (n + 1) low high bits) seen (b :: bs) =
      run (.owing n 0x80 0xBF (bits * 0x40 + (b.toNat - 0x80))) seen bs := by
  rw [run, step, if_pos h]

/-- Inside a character the machine goes on only with a byte in its range. -/
theorem exists_cons_of_run_owing {owed low high bits : Nat} {seen : List Char} {bs : List UInt8} {cs : List Char}
    (h : run (.owing owed low high bits) seen bs = .ok cs) :
    ∃ b rest, bs = b :: rest ∧ low ≤ b.toNat ∧ b.toNat ≤ high := by
  cases bs with
  | nil => cases h
  | cons b rest =>
    refine ⟨b, rest, rfl, ?_⟩
    by_contra hb
    have hs : step (.owing owed low high bits) b.toNat = .error .continuation := by rw [step.eq_def]; exact if_neg hb
    rw [run, hs] at h
    cases h

/-! ## From characters to bytes and back -/

/-- A character's bytes lead the machine through the character. -/
theorem run_encodePoint {n : Nat} (hn : n.isValidChar) (seen : List Char) (bs : List UInt8) :
    run .idle seen (encodePoint n ++ bs) = run .idle (Char.ofNat n :: seen) bs := by
  have hlt : n < 0x110000 ∧ (n < 0xD800 ∨ 0xDFFF < n) := by
    rcases hn with h | ⟨h1, h2⟩
    · exact ⟨by omega, .inl h⟩
    · exact ⟨h2, .inr h1⟩
  rw [encodePoint_eq]
  split
  · rename_i h1
    have e : (UInt8.ofNat n).toNat = n := toNat_ofNat_of_lt (by omega)
    exact run_idle_emit (by rw [e, lead_one h1]) seen bs
  rename_i h1
  split
  · rename_i h2
    have e : (UInt8.ofNat (0xC0 + n / 0x40)).toNat = 0xC0 + n / 0x40 := toNat_ofNat_of_lt (by omega)
    have ht := toNat_tail n
    rw [List.cons_append, run_idle_goto (by rw [e, lead_two (by omega) (by omega)]), List.cons_append,
      run_owing_zero (by omega), ht,
      show (0xC0 + n / 0x40 - 0xC0) * 0x40 + (0x80 + n % 0x40 - 0x80) = n by omega,
      List.nil_append]
  rename_i h2
  split
  · rename_i h3
    have e : (UInt8.ofNat (0xE0 + n / 0x1000)).toNat = 0xE0 + n / 0x1000 := toNat_ofNat_of_lt (by omega)
    have ht := toNat_tail n
    have ht' := toNat_tail (n / 0x40)
    rw [List.cons_append, run_idle_goto (by rw [e, lead_three (by omega) (by omega)]), List.cons_append,
      run_owing_succ (by split <;> split <;> omega), ht', List.cons_append, run_owing_zero (by omega), ht,
      show ((0xE0 + n / 0x1000 - 0xE0) * 0x40 + (0x80 + n / 0x40 % 0x40 - 0x80)) * 0x40 +
        (0x80 + n % 0x40 - 0x80) = n by omega,
      List.nil_append]
  · rename_i h3
    have e : (UInt8.ofNat (0xF0 + n / 0x40000)).toNat = 0xF0 + n / 0x40000 := toNat_ofNat_of_lt (by omega)
    have ht := toNat_tail n
    have ht' := toNat_tail (n / 0x40)
    have ht'' := toNat_tail (n / 0x1000)
    rw [List.cons_append, run_idle_goto (by rw [e, lead_four (by omega) (by omega)]), List.cons_append,
      run_owing_succ (by split <;> split <;> omega), ht'', List.cons_append, run_owing_succ (by omega), ht',
      List.cons_append, run_owing_zero (by omega), ht,
      show (((0xF0 + n / 0x40000 - 0xF0) * 0x40 + (0x80 + n / 0x1000 % 0x40 - 0x80)) * 0x40 +
        (0x80 + n / 0x40 % 0x40 - 0x80)) * 0x40 + (0x80 + n % 0x40 - 0x80) = n by omega,
      List.nil_append]

theorem encode_cons (c : Char) (cs : List Char) : encode (c :: cs) = encodePoint c.toNat ++ encode cs := by
  rw [encode, List.flatMap_cons]
  rfl

theorem run_encode : ∀ (cs seen : List Char), run .idle seen (encode cs) = .ok (seen.reverse ++ cs)
  | [], seen => by simp [encode, run]
  | c :: cs, seen => by
    rw [encode_cons, run_encodePoint (show c.toNat.isValidChar from c.valid), run_encode cs, Char.ofNat_toNat,
      List.reverse_cons, List.append_assoc]
    rfl

/-- **Characters are read back from their bytes.** -/
theorem decode_encode (cs : List Char) : decode (encode cs) = .ok cs := by
  rw [decode, run_encode]
  rfl

/-! ## From bytes to characters and back -/

theorem encodePoint_one {b : UInt8} (h : b.toNat < 0x80) : encodePoint b.toNat = [b] := by
  rw [encodePoint_eq, if_pos h, UInt8.ofNat_toNat]

theorem encodePoint_two {b x : UInt8} (hb : 0xC2 ≤ b.toNat ∧ b.toNat < 0xE0)
    (hx : 0x80 ≤ x.toNat ∧ x.toNat ≤ 0xBF) :
    encodePoint ((b.toNat - 0xC0) * 0x40 + (x.toNat - 0x80)) = [b, x] := by
  rw [encodePoint_eq, if_neg (by omega), if_pos (by omega)]
  simp only [List.cons.injEq, and_true, ← UInt8.toNat_inj, toNat_tail]
  rw [toNat_ofNat_of_lt (by omega)]
  omega

theorem encodePoint_three {b x y : UInt8} (hb : 0xE0 ≤ b.toNat ∧ b.toNat < 0xF0)
    (hx : (if b.toNat = 0xE0 then 0xA0 else 0x80) ≤ x.toNat ∧ x.toNat ≤ if b.toNat = 0xED then 0x9F else 0xBF)
    (hy : 0x80 ≤ y.toNat ∧ y.toNat ≤ 0xBF) :
    encodePoint (((b.toNat - 0xE0) * 0x40 + (x.toNat - 0x80)) * 0x40 + (y.toNat - 0x80)) = [b, x, y] := by
  have hx1 : 0x80 ≤ x.toNat ∧ x.toNat ≤ 0xBF := by
    obtain ⟨h1, h2⟩ := hx
    split at h1 <;> split at h2 <;> omega
  have hbig : 0x800 ≤ ((b.toNat - 0xE0) * 0x40 + (x.toNat - 0x80)) * 0x40 + (y.toNat - 0x80) := by
    by_cases hE : b.toNat = 0xE0
    · rw [if_pos hE] at hx; omega
    · omega
  rw [encodePoint_eq, if_neg (by omega), if_neg (by omega), if_pos (by omega)]
  simp only [List.cons.injEq, and_true, ← UInt8.toNat_inj, toNat_tail]
  rw [toNat_ofNat_of_lt (by omega)]
  omega

theorem encodePoint_four {b x y z : UInt8} (hb : 0xF0 ≤ b.toNat ∧ b.toNat ≤ 0xF4)
    (hx : (if b.toNat = 0xF0 then 0x90 else 0x80) ≤ x.toNat ∧ x.toNat ≤ if b.toNat = 0xF4 then 0x8F else 0xBF)
    (hy : 0x80 ≤ y.toNat ∧ y.toNat ≤ 0xBF) (hz : 0x80 ≤ z.toNat ∧ z.toNat ≤ 0xBF) :
    encodePoint ((((b.toNat - 0xF0) * 0x40 + (x.toNat - 0x80)) * 0x40 + (y.toNat - 0x80)) * 0x40 + (z.toNat - 0x80)) =
      [b, x, y, z] := by
  have hx1 : 0x80 ≤ x.toNat ∧ x.toNat ≤ 0xBF := by
    obtain ⟨h1, h2⟩ := hx
    split at h1 <;> split at h2 <;> omega
  have hbig : 0x10 ≤ (b.toNat - 0xF0) * 0x40 + (x.toNat - 0x80) := by
    by_cases h0 : b.toNat = 0xF0
    · rw [if_pos h0] at hx; omega
    · omega
  rw [encodePoint_eq, if_neg (by omega), if_neg (by omega), if_neg (by omega)]
  simp only [List.cons.injEq, and_true, ← UInt8.toNat_inj, toNat_tail]
  rw [toNat_ofNat_of_lt (by omega)]
  omega

theorem isValidChar_of_lt {n : Nat} (h : n < 0xD800 ∨ 0xDFFF < n ∧ n < 0x110000) : n.isValidChar := h

theorem toNat_charOfNat {n : Nat} (h : n.isValidChar) : (Char.ofNat n).toNat = n := by
  rw [Char.ofNat, dif_pos h]
  rfl

theorem encode_ofNat_cons {n : Nat} (h : n.isValidChar) (cs : List Char) :
    encode (Char.ofNat n :: cs) = encodePoint n ++ encode cs := by
  rw [encode_cons, toNat_charOfNat h]

/-- What the machine reads between characters is the bytes of the characters that it adds. -/
theorem exists_encode_of_run (bs : List UInt8) (seen cs : List Char) (h : run .idle seen bs = .ok cs) :
    ∃ ds, cs = seen.reverse ++ ds ∧ encode ds = bs := by
  match bs, h with
  | [], h =>
    cases h
    exact ⟨[], by simp, rfl⟩
  | b :: bs, h =>
    by_cases h1 : b.toNat < 0x80
    · rw [run_idle_emit (lead_one h1)] at h
      obtain ⟨ds, rfl, rfl⟩ := exists_encode_of_run bs _ cs h
      refine ⟨Char.ofNat b.toNat :: ds, by simp, ?_⟩
      rw [encode_ofNat_cons (isValidChar_of_lt (by omega)), encodePoint_one h1]
      rfl
    by_cases h2 : b.toNat < 0xC2 ∨ 0xF4 < b.toNat
    · rw [run, step, lead_none (by omega)] at h
      cases h
    by_cases h3 : b.toNat < 0xE0
    · rw [run_idle_goto (lead_two (by omega) h3)] at h
      obtain ⟨x, bs, rfl, hx⟩ := exists_cons_of_run_owing h
      rw [run_owing_zero hx] at h
      obtain ⟨ds, rfl, rfl⟩ := exists_encode_of_run bs _ cs h
      refine ⟨_ :: ds, by rw [List.reverse_cons, List.append_assoc]; rfl, ?_⟩
      rw [encode_ofNat_cons (isValidChar_of_lt (by omega)), encodePoint_two (by omega) hx]
      rfl
    by_cases h4 : b.toNat < 0xF0
    · rw [run_idle_goto (lead_three (by omega) h4)] at h
      obtain ⟨x, bs, rfl, hx⟩ := exists_cons_of_run_owing h
      rw [run_owing_succ hx] at h
      obtain ⟨y, bs, rfl, hy⟩ := exists_cons_of_run_owing h
      rw [run_owing_zero hy] at h
      obtain ⟨ds, rfl, rfl⟩ := exists_encode_of_run bs _ cs h
      refine ⟨_ :: ds, by rw [List.reverse_cons, List.append_assoc]; rfl, ?_⟩
      rw [encode_ofNat_cons (isValidChar_of_lt ?_), encodePoint_three (by omega) hx hy]
      · rfl
      · obtain ⟨hx1, hx2⟩ := hx
        split at hx1 <;> split at hx2 <;> omega
    · rw [run_idle_goto (lead_four (by omega) (by omega))] at h
      obtain ⟨x, bs, rfl, hx⟩ := exists_cons_of_run_owing h
      rw [run_owing_succ hx] at h
      obtain ⟨y, bs, rfl, hy⟩ := exists_cons_of_run_owing h
      rw [run_owing_succ hy] at h
      obtain ⟨z, bs, rfl, hz⟩ := exists_cons_of_run_owing h
      rw [run_owing_zero hz] at h
      obtain ⟨ds, rfl, rfl⟩ := exists_encode_of_run bs _ cs h
      refine ⟨_ :: ds, by rw [List.reverse_cons, List.append_assoc]; rfl, ?_⟩
      rw [encode_ofNat_cons (isValidChar_of_lt ?_), encodePoint_four (by omega) hx hy hz]
      · rfl
      · obtain ⟨hx1, hx2⟩ := hx
        split at hx1 <;> split at hx2 <;> omega
termination_by bs.length

/-- **Bytes that are read as characters are the bytes of these characters.** -/
theorem encode_of_decode {bs : List UInt8} {cs : List Char} (h : decode bs = .ok cs) : encode cs = bs := by
  obtain ⟨ds, rfl, rfl⟩ := exists_encode_of_run bs [] cs h
  rfl

/-! ## What the bytes are -/

theorem tail_ne_zero (n : Nat) : tail n ≠ 0 := by
  intro h
  have := toNat_tail n
  rw [h] at this
  simp at this
  omega

theorem ofNat_ne_zero {n : Nat} (h0 : 0 < n) (h : n < 256) : UInt8.ofNat n ≠ 0 := by
  rw [Ne, ← UInt8.toNat_inj, toNat_ofNat_of_lt (by omega)]
  exact h0.ne'

theorem zero_mem_encodePoint {n : Nat} (hn : n < 0x110000) : (0 : UInt8) ∈ encodePoint n ↔ n = 0 := by
  rw [encodePoint_eq]
  by_cases h0 : n = 0
  · subst h0
    simp
  refine iff_of_false ?_ h0
  have ht : ∀ m, ¬ (0 = tail m) := fun m h => tail_ne_zero m h.symm
  split
  · simpa [eq_comm] using ofNat_ne_zero (n := n) (by omega) (by omega)
  split
  · simpa [ht, eq_comm] using ofNat_ne_zero (n := 0xC0 + n / 0x40) (by omega) (by omega)
  split
  · simpa [ht, eq_comm] using ofNat_ne_zero (n := 0xE0 + n / 0x1000) (by omega) (by omega)
  · simpa [ht, eq_comm] using ofNat_ne_zero (n := 0xF0 + n / 0x40000) (by omega) (by omega)

theorem toNat_lt (c : Char) : c.toNat < 0x110000 := by
  rcases (show c.toNat.isValidChar from c.valid) with h | h
  · omega
  · exact h.2

theorem zero_mem_encode {cs : List Char} : (0 : UInt8) ∈ encode cs ↔ 0 ∈ cs.map Char.toNat := by
  induction cs with
  | nil => simp [encode]
  | cons c cs ih =>
    have hc : c.toNat < 0x110000 := toNat_lt c
    rw [encode_cons, List.mem_append, ih, zero_mem_encodePoint hc, List.map_cons, List.mem_cons, eq_comm]

/-- **ASCII text is its own UTF-8.** -/
theorem encode_of_ascii : ∀ cs : List Char, (∀ c ∈ cs, c.toNat < 0x80) →
    encode cs = cs.map (fun c => UInt8.ofNat c.toNat)
  | [], _ => rfl
  | c :: cs, h => by
    rw [encode_cons, encode_of_ascii cs (fun d hd => h d (List.mem_cons_of_mem c hd)), encodePoint,
      if_pos (h c List.mem_cons_self)]
    rfl

/-- A character has the bytes that it has in the core library, which masks what the lead byte carries: no bit of it is
lost. -/
theorem encodePoint_toNat (c : Char) : encodePoint c.toNat = String.utf8EncodeChar c := by
  have hlt := toNat_lt c
  have hval : c.val.toNat = c.toNat := rfl
  rw [encodePoint_eq, String.utf8EncodeChar, hval]
  generalize c.toNat = n at hlt
  simp only [tail, Nat.lt_succ_iff.symm]
  split
  · rfl
  split
  · rename_i h
    simp only [Nat.mod_eq_of_lt (Nat.div_lt_of_lt_mul h : n / 0x40 < 32), Nat.add_comm]
  split
  · rename_i h
    simp only [Nat.mod_eq_of_lt (Nat.div_lt_of_lt_mul h : n / 0x1000 < 16), Nat.add_comm]
  · simp only [Nat.mod_eq_of_lt (by omega : n / 0x40000 < 8), Nat.add_comm]

/-- **The bytes of a string are its UTF-8**, as the core library has it. -/
theorem encode_toList (s : String) : encode s.toList = s.toUTF8.data.toList := by
  have hs : encode s.toList = s.toList.flatMap String.utf8EncodeChar :=
    List.flatMap_congr fun c _ => encodePoint_toNat c
  rw [hs, String.toUTF8_eq_toByteArray, ← String.utf8Encode_toList, List.utf8Encode, List.data_toByteArray]

end Marshal.Utf8
