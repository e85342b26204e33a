import Marshal.Proofs.Outcome
import Mathlib.Tactic
/-!
# Integers and strings, to the byte

What a writer of a scalar appends and what a reader makes of it are inverse to one another, and nothing else is ever
accepted. For integers that is a bijection between the numbers of a range and the byte strings of a width
(`int_bijective`), the number being the residue that the digits give (`ofDigits_of_appends_int`). For strings it is the
standard's own UTF-8, with the zero byte behind it and the length before it where there is one (`string_exact`).
-/
namespace Marshal

/-- Whether a writer appends the given bytes, whatever stands before them. -/
def Put.Appends (put : Put Unit) (bs : List UInt8) : Prop :=
  ∀ bytes : Array UInt8, put ⟨bytes, []⟩ = .ok () ⟨bytes ++ bs, []⟩

/-- The numbers that a width holds, with signs or without. -/
def Integer.range (width : Nat) (signed : Bool) : Set Int :=
  if signed then Set.Ico (-2 ^ (8 * width - 1)) (2 ^ (8 * width - 1)) else Set.Ico 0 (2 ^ (8 * width))

/-- The UTF-8 of a string. -/
def utf8 (s : String) : List UInt8 := s.toUTF8.data.toList

open Put Get

variable {put : Put Unit} {f : Integer.Format} {n : Int} {bs : List UInt8} {width : Nat} {order : ByteOrder}

/-- What a writer emits is what it appends. -/
theorem Put.Emits.appends_iff {r : Except Error (List UInt8)} (h : Emits put r) : Appends put bs ↔ r = .ok bs := by
  cases r with
  | error e =>
    refine iff_of_false (fun happ => ?_) nofun
    obtain ⟨s, hs⟩ := Lays.apply_of_error (f := fun _ => .error e) h #[] rfl
    cases hs.symm.trans (happ #[])
  | ok cs =>
    have happly (bytes : Array UInt8) : put ⟨bytes, []⟩ = .ok () ⟨bytes ++ cs, []⟩ := by
      rw [Lays.apply_of_ok (f := fun _ => .ok (Cell.given cs)) h bytes rfl, Cell.render_given]
    constructor
    · intro happ
      have heq := (happly #[]).symm.trans (happ #[])
      simp only [EStateM.Result.ok.injEq, Sink.mk.injEq, and_true, true_and, ← Array.toList_inj,
        Array.toList_appendList, List.append_cancel_left_eq] at heq
      rw [heq]
    · rintro ⟨⟩
      exact happly

/-! ## Integers -/

theorem Integer.mem_range {signed : Bool} : n ∈ range width signed ↔ Fits width signed n := by
  cases signed <;> rfl

theorem appends_int_iff : Appends (Put.int f n) bs ↔ Integer.encode? f n = some bs := by
  rw [(emits_int f n).appends_iff, intBytes_eq_ok]

theorem Integer.ofDigits_eq : ∀ bs : List UInt8, ofDigits bs = Nat.ofDigits 256 (bs.map UInt8.toNat)
  | [] => rfl
  | b :: bs => by rw [ofDigits, ofDigits_eq bs, List.map_cons, Nat.ofDigits_cons]

/-- The bytes of a number, the lowest first, are the digits of its residue: negative numbers are in two's complement. -/
theorem ofDigits_of_appends_int {signed : Bool} (h : Appends (Put.int ⟨width, signed, .little⟩ n) bs) :
    Nat.ofDigits (256 : Int) (bs.map UInt8.toNat) = n % 256 ^ width := by
  obtain ⟨-, rfl⟩ := Integer.encode?_eq_some_iff.1 (appends_int_iff.1 h)
  have hnonneg : 0 ≤ n % 256 ^ width := Int.emod_nonneg n (by positivity)
  calc Nat.ofDigits (256 : Int) ((Integer.digits width (n % 256 ^ width).toNat).map UInt8.toNat)
    _ = (Integer.ofDigits (Integer.digits width (n % 256 ^ width).toNat) : Int) := by
      rw [Integer.ofDigits_eq, Nat.coe_ofDigits]
      rfl
    _ = n % 256 ^ width := by
      rw [Integer.ofDigits_digits_of_lt (Integer.toNat_emod_lt width n), Int.toNat_of_nonneg hnonneg]

theorem put_int_of_not_mem {signed : Bool} (h : n ∉ Integer.range width signed) (sink : Sink) :
    Put.int ⟨width, signed, order⟩ n sink = .error (.mismatch (.doesNotFit n width)) sink := by
  rw [Put.int, Integer.encode?_eq_none_iff.2 (mt Integer.mem_range.2 h)]
  rfl

/-- **Integers of a width are in bijection with the byte strings of that length.** A number of the range is written as
such a string and read back from it, whatever follows; a number outside of it is a mismatch, and nothing is written; any
such string is that of a number of the range; and one byte order is the other reversed. -/
theorem int_bijective (width : Nat) (hwidth : 0 < width) (signed : Bool) (order : ByteOrder) :
    let f : Integer.Format := ⟨width, signed, order⟩
    (∀ n ∈ Integer.range width signed, ∃ bs, bs.length = width ∧ Appends (Put.int f n) bs ∧
        ∀ position, Reads (Get.int f) position bs n) ∧
      (∀ n ∉ Integer.range width signed, ∀ sink,
        Put.int f n sink = .error (.mismatch (.doesNotFit n width)) sink) ∧
      (∀ bs : List UInt8, bs.length = width → ∃ n ∈ Integer.range width signed,
        (∀ position, Reads (Get.int f) position bs n) ∧ Appends (Put.int f n) bs) ∧
      ∀ n bs, Appends (Put.int ⟨width, signed, .little⟩ n) bs ↔
        Appends (Put.int ⟨width, signed, .big⟩ n) bs.reverse := by
  intro f
  have hread {n : Int} {bs : List UInt8} (h : Integer.encode? f n = some bs) (position : Int) :
      Reads (Get.int f) position bs n := reads_int hwidth (intBytes_eq_ok.2 h)
  refine ⟨fun n hn => ?_, fun n hn => put_int_of_not_mem hn, fun bs hbs => ?_, fun n bs => ?_⟩
  · have h := Integer.encode?_eq_some_iff (f := f).2 ⟨Integer.mem_range.1 hn, rfl⟩
    exact ⟨_, Integer.length_of_encode? h, appends_int_iff.2 h, hread h⟩
  · have h : Integer.encode? f (Integer.decode f bs) = some bs := Integer.encode?_decode hwidth hbs
    exact ⟨_, Integer.mem_range.2 (Integer.encode?_eq_some_iff.1 h).1, hread h, appends_int_iff.2 h⟩
  · rw [appends_int_iff, appends_int_iff, Integer.encode?_eq_some_iff, Integer.encode?_eq_some_iff]
    simp only [ByteOrder.arrange, List.reverse_inj]

/-- The least number of two bytes with signs, and the one below it. -/
theorem int_bijective_two :
    0 < 2 ∧ Appends (Put.int ⟨2, true, .big⟩ (-32768)) [0x80, 0] ∧
      (∀ position, Reads (Get.int ⟨2, true, .big⟩) position [0x80, 0] (-32768)) ∧
      ∀ sink, Put.int ⟨2, true, .big⟩ (-32769) sink = .error (.mismatch (.doesNotFit (-32769) 2)) sink := by
  obtain ⟨hinside, houtside, -, -⟩ := int_bijective 2 (by decide) true .big
  obtain ⟨bs, -, happend, hread⟩ := hinside (-32768) (Integer.mem_range.2 (by decide))
  obtain rfl : [0x80, 0] = bs := Option.some.inj (appends_int_iff.1 happend)
  exact ⟨by decide, happend, hread, houtside (-32769) (mt Integer.mem_range.1 (by decide))⟩

/-! ## Strings -/

variable {s : String} {position : Int} {data : List UInt8} {t : Source}

theorem appends_text_iff :
    Appends (Put.text width order (Text.ofString s)) bs ↔ charsBytes width order s.toList = .ok bs := by
  rw [(emits_text width order _).appends_iff, textBytes_ofString]

theorem zero_notMem_ofString : 0 ∉ Text.ofString s ↔ '\x00' ∉ s.toList := by
  have hzero : ∀ c : Char, c.toNat = 0 ↔ c = '\x00' := fun c => Char.toNat_inj (d := '\x00')
  simp only [Text.ofString, List.mem_map, hzero, exists_eq_right]

/-- Without a length, a string is its UTF-8 and the zero. -/
theorem charsBytes_zero : charsBytes 0 order s.toList = .ok (utf8 s ++ [0]) := by
  rw [charsBytes, lengthBytes, if_pos rfl, Utf8.encode_toList]
  rfl

/-- The length has room for the number of bytes before which it stands. -/
theorem length_lt_of_charsBytes (hwidth : 0 < width) (h : charsBytes width order s.toList = .ok bs) :
    (utf8 s).length < 256 ^ width := by
  obtain ⟨length, hlength, -⟩ := charsBytes_eq_ok.1 h
  rw [lengthBytes, if_neg hwidth.ne', Utf8.encode_toList, intBytes_eq_ok, Integer.encode?_eq_some_iff] at hlength
  exact Integer.fits_natCast_iff.1 hlength.1

/-- Without a length, the reader takes the whole of its window before it looks at it. -/
theorem rest_of_string_zero (h : Get.string 0 order ⟨position, data, []⟩ = .ok s t) : t.rest = [] := by
  obtain ⟨cs, t', hchars, hpure⟩ := bind_eq_ok.1 h
  cases hpure
  unfold Get.chars at hchars
  simp only [if_true] at hchars
  obtain ⟨bs, t'', hall, hrest⟩ := bind_eq_ok.1 hchars
  cases hall
  split at hrest
  · cases hrest
  · obtain ⟨ds, rest, hnil, rfl, -⟩ := finds_ofExcept _ _ _ hrest
    exact (List.append_eq_nil_iff.1 hnil.symm).2

theorem string_zero_eq_ok : Get.string 0 order ⟨position, data, []⟩ = .ok s t ↔
    '\x00' ∉ s.toList ∧ data = utf8 s ++ [0] ∧ t = ⟨position + data.length, [], []⟩ := by
  constructor
  · intro h
    obtain ⟨bs, rest, rfl, rfl, hbs, h0⟩ := finds_string 0 order data s t h
    obtain rfl : rest = [] := rest_of_string_zero h
    obtain rfl : utf8 s ++ [0] = bs := Except.ok.inj (charsBytes_zero.symm.trans hbs)
    rw [List.append_nil]
    exact ⟨zero_notMem_ofString.1 h0, rfl, rfl⟩
  · rintro ⟨h0, rfl, rfl⟩
    exact takes_string (zero_notMem_ofString.2 h0) charsBytes_zero

theorem string_eq_ok (hwidth : 0 < width) : Get.string width order ⟨position, data, []⟩ = .ok s t ↔
    '\x00' ∉ s.toList ∧ (utf8 s).length < 256 ^ width ∧
      ∃ bs rest, Appends (Put.text width order (Text.ofString s)) bs ∧ data = bs ++ rest ∧
        t = ⟨position + bs.length, rest, []⟩ := by
  constructor
  · intro h
    obtain ⟨bs, rest, hdata, ht, hbs, h0⟩ := finds_string width order data s t h
    exact ⟨zero_notMem_ofString.1 h0, length_lt_of_charsBytes hwidth hbs, bs, rest, appends_text_iff.2 hbs, hdata, ht⟩
  · rintro ⟨h0, -, bs, rest, hbs, rfl, rfl⟩
    exact reads_string hwidth (zero_notMem_ofString.2 h0) (appends_text_iff.1 hbs) rest

/-- **What is read as a string is what a string is written as.** A window without a length gives a string just when it
is the string's UTF-8 and a zero, and there is no zero in the string; input with a length before it gives one just when
it starts with what the string is written as, and what follows is left. All other input is refused as not valid. -/
theorem string_exact (order : ByteOrder) (position : Int) (data : List UInt8) :
    (∀ s t, Get.string 0 order ⟨position, data, []⟩ = .ok s t ↔
        '\x00' ∉ s.toList ∧ data = utf8 s ++ [0] ∧ t = ⟨position + data.length, [], []⟩) ∧
      (∀ width, 0 < width → ∀ s t, Get.string width order ⟨position, data, []⟩ = .ok s t ↔
        '\x00' ∉ s.toList ∧ (utf8 s).length < 256 ^ width ∧
          ∃ bs rest, Appends (Put.text width order (Text.ofString s)) bs ∧ data = bs ++ rest ∧
            t = ⟨position + bs.length, rest, []⟩) ∧
      ∀ width, (∃ s t, Get.string width order ⟨position, data, []⟩ = .ok s t) ∨
        ∃ e t, Get.string width order ⟨position, data, []⟩ = .error (.decode e) t := by
  refine ⟨fun s t => string_zero_eq_ok, fun width hwidth s t => string_eq_ok hwidth, fun width => ?_⟩
  cases hr : Get.string width order ⟨position, data, []⟩ with
  | ok s t => exact .inl ⟨s, t, rfl⟩
  | error e t =>
    -- without caps, and in a scalar, there is only one reason left to refuse an input
    have hrejected : Rejection none False e :=
      (ends_string width order).error (s := ⟨position, data, []⟩) (List.forall_mem_nil _) hr
    obtain ⟨d⟩ | ⟨⟨⟩⟩ | ⟨⟨⟩⟩ := hrejected
    exact .inr ⟨d, t, rfl⟩

/-- A string of one character in two bytes, with input behind it. -/
theorem string_exact_pi :
    0 < 1 ∧ Get.string 1 .little ⟨0, [2, 0xCF, 0x80, 0, 7], []⟩ = .ok "π" ⟨4, [7], []⟩ := by
  obtain ⟨-, hprefixed, -⟩ := string_exact .little 0 [2, 0xCF, 0x80, 0, 7]
  have hchars : "π".toList = ['π'] := rfl
  have hutf8 : Utf8.encode ['π'] = [0xCF, 0x80] := by decide
  have hbytes : charsBytes 1 .little "π".toList = .ok [2, 0xCF, 0x80, 0] := by
    rw [hchars, charsBytes, hutf8]
    rfl
  exact ⟨by decide, (hprefixed 1 (by decide) "π" _).2 ⟨by rw [hchars]; decide,
    length_lt_of_charsBytes (by decide) hbytes, [2, 0xCF, 0x80, 0], [7], appends_text_iff.2 hbytes, rfl, rfl⟩⟩

end Marshal
