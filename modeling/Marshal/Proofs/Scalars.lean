import Marshal.Proofs.Grammar
import Marshal.Proofs.Integer
import Marshal.Proofs.Steps
import Marshal.Proofs.Utf8
import Marshal.Wire.Scalar
/-!
# Scalars and their bytes

The bytes of each kind of scalar, with three facts for each: the writer emits them, the reader reads them back, and what
a reader finds are the bytes of what it gives. A text without a length before it takes the whole of its window.
-/
namespace Marshal

open Put Get

/-! ## The bytes -/

def intBytes (f : Integer.Format) (n : Int) : Except Error (List UInt8) :=
  match Integer.encode? f n with
  | some bs => .ok bs
  | none => .error (.mismatch (.doesNotFit n f.width))

def booleanBytes (width : Nat) (order : ByteOrder) (b : Bool) : Except Error (List UInt8) :=
  intBytes ⟨width, false, order⟩ (if b then 1 else 0)

def doubleBytes (order : ByteOrder) (bits : Binary64) : List UInt8 := order.arrange (Integer.digits 8 bits.toNat)

/-- The length before a text, which there is only when it has a width. -/
def lengthBytes (lengthWidth : Nat) (order : ByteOrder) (n : Nat) : Except Error (List UInt8) :=
  if lengthWidth = 0 then .ok [] else intBytes ⟨lengthWidth, false, order⟩ n

def charsBytes (lengthWidth : Nat) (order : ByteOrder) (cs : List Char) : Except Error (List UInt8) := do
  let length ← lengthBytes lengthWidth order (Utf8.encode cs).length
  return length ++ (Utf8.encode cs ++ [0])

def textBytes (lengthWidth : Nat) (order : ByteOrder) (t : Text) : Except Error (List UInt8) :=
  if t.IsScalar then charsBytes lengthWidth order (t.map Char.ofNat) else .error (surrogateError t)

def signatureBytes (prefixed : Bool) (t : Text) : Except Error (List UInt8) :=
  if Limits.signatureLength < t.length then .error (.mismatch .signatureTooLong)
  else textBytes (if prefixed then 1 else 0) .little t

variable {f : Integer.Format} {n : Int} {w : Nat} {o : ByteOrder} {bs : List UInt8} {p : Int}

theorem intBytes_eq_ok : intBytes f n = .ok bs ↔ Integer.encode? f n = some bs := by
  unfold intBytes
  cases Integer.encode? f n <;> simp

theorem length_intBytes (h : intBytes f n = .ok bs) : bs.length = f.width :=
  Integer.length_of_encode? (intBytes_eq_ok.1 h)

theorem length_doubleBytes (o : ByteOrder) (bits : Binary64) : (doubleBytes o bits).length = 8 := by
  rw [doubleBytes, ByteOrder.length_arrange, Integer.length_digits]

theorem charsBytes_eq_ok {cs : List Char} :
    charsBytes w o cs = .ok bs ↔
      ∃ length, lengthBytes w o (Utf8.encode cs).length = .ok length ∧ bs = length ++ (Utf8.encode cs ++ [0]) := by
  rw [charsBytes, except_bind_eq_ok]
  simp only [pure, Except.pure, Except.ok.injEq]
  exact exists_congr fun _ => and_congr_right fun _ => eq_comm

theorem length_charsBytes {cs : List Char} (h : charsBytes w o cs = .ok bs) :
    bs.length = w + ((Utf8.encode cs).length + 1) := by
  obtain ⟨length, hl, rfl⟩ := charsBytes_eq_ok.1 h
  have hlen : length.length = w := by
    unfold lengthBytes at hl
    split at hl
    · rename_i h0
      cases hl
      exact h0.symm
    · exact length_intBytes hl
  rw [List.length_append, List.length_append, hlen, List.length_singleton]

/-! ### Scalars that have none -/

variable {e : Error}

theorem kind_of_intBytes (h : intBytes f n = .error e) : e.kind = .mismatch := by
  unfold intBytes at h
  split at h
  · cases h
  · cases h
    rfl

theorem kind_of_charsBytes {cs : List Char} (h : charsBytes w o cs = .error e) : e.kind = .mismatch := by
  rcases except_bind_eq_error.1 h with h | ⟨_, -, h⟩
  · unfold lengthBytes at h
    split at h
    · cases h
    · exact kind_of_intBytes h
  · cases h

/-! ## Writing -/

theorem emits_int (f : Integer.Format) (n : Int) : Emits (Put.int f n) (intBytes f n) := by
  unfold Put.int intBytes
  cases Integer.encode? f n with
  | some bs => exact emits_writeBytes bs
  | none => exact emits_throw _

theorem emits_boolean (w : Nat) (o : ByteOrder) (b : Bool) : Emits (Put.boolean w o b) (booleanBytes w o b) :=
  emits_int _ _

theorem emits_double (o : ByteOrder) (bits : Binary64) : Emits (Put.double o bits) (.ok (doubleBytes o bits)) :=
  emits_writeBytes _

theorem emits_chars (w : Nat) (o : ByteOrder) (cs : List Char) : Emits (Put.chars w o cs) (charsBytes w o cs) := by
  have hrest := (emits_writeBytes (Utf8.encode cs)).andThen (emits_writeByte (n := 0) (by decide))
  unfold Put.chars charsBytes lengthBytes
  by_cases hw : w = 0
  · simp only [if_pos hw]
    exact emits_pure.andThen hrest
  · simp only [if_neg hw]
    exact (emits_int _ _).andThen hrest

theorem emits_text (w : Nat) (o : ByteOrder) (t : Text) : Emits (Put.text w o t) (textBytes w o t) := by
  unfold Put.text textBytes
  split
  · exact emits_chars w o _
  · exact emits_throw _

theorem emits_signature (prefixed : Bool) (t : Text) :
    Emits (Put.signature prefixed t) (signatureBytes prefixed t) := by
  unfold Put.signature signatureBytes
  split
  · exact emits_throw _
  · exact emits_text _ _ t

/-! ## Reading -/

theorem reads_int (hw : 0 < f.width) (h : intBytes f n = .ok bs) : Reads (Get.int f) p bs n := by
  rw [intBytes_eq_ok] at h
  have hlen : (bs.length : Int) = f.width := by exact_mod_cast Integer.length_of_encode? h
  refine (reads_readBytes hlen).bind_nil ?_
  rw [Integer.decode_of_encode? hw h]
  exact reads_pure n

theorem finds_int (hw : 0 < f.width) : Finds (Get.int f) p fun bs n => intBytes f n = .ok bs := by
  refine finds_readBytes.map fun bs a hb => ?_
  obtain ⟨rfl, hlen⟩ := hb
  rw [intBytes_eq_ok]
  exact Integer.encode?_decode hw (by exact_mod_cast hlen)

theorem reads_boolean (hw : 0 < w) {b : Bool} (h : booleanBytes w o b = .ok bs) : Reads (Get.boolean w o) p bs b := by
  refine (reads_int hw h).bind_nil ?_
  cases b with
  | false => exact reads_pure false
  | true => exact reads_pure true

theorem finds_boolean (hw : 0 < w) : Finds (Get.boolean w o) p fun bs b => booleanBytes w o b = .ok bs := by
  refine (finds_int hw).bind fun bs n hb => ?_
  split
  · rename_i h0
    subst h0
    exact finds_pure (by rwa [List.append_nil])
  split
  · rename_i h1
    subst h1
    exact finds_pure (by rwa [List.append_nil])
  · exact finds_fail

theorem reads_double (o : ByteOrder) (bits : Binary64) : Reads (Get.double o) p (doubleBytes o bits) bits := by
  refine (reads_readBytes (by rw [length_doubleBytes]; rfl)).bind_nil ?_
  have hback : UInt64.ofNat (Integer.ofDigits (o.arrange (doubleBytes o bits))) = bits := by
    rw [doubleBytes, ByteOrder.arrange_arrange, Integer.ofDigits_digits_of_lt bits.toNat_lt, UInt64.ofNat_toNat]
  rw [hback]
  exact reads_pure bits

theorem finds_double (o : ByteOrder) : Finds (Get.double o) p fun bs bits => doubleBytes o bits = bs := by
  refine finds_readBytes.map fun bs a hb => ?_
  obtain ⟨rfl, hlen⟩ := hb
  have hlen' : (o.arrange bs).length = 8 := by rw [ByteOrder.length_arrange]; exact_mod_cast hlen
  have hlt := Integer.ofDigits_lt (o.arrange bs)
  rw [hlen'] at hlt
  have hback := Integer.digits_ofDigits (o.arrange bs)
  rw [hlen'] at hback
  rw [doubleBytes, UInt64.toNat_ofNat_of_lt' hlt, hback, ByteOrder.arrange_arrange]

theorem charsOfBytes_eq_ok {cs : List Char} : charsOfBytes bs = .ok cs ↔ 0 ∉ bs ∧ bs = Utf8.encode cs := by
  unfold charsOfBytes
  by_cases h0 : (0 : UInt8) ∈ bs
  · simp [h0]
  · rw [if_neg (by simpa using h0), mapError_eq_ok]
    constructor
    · exact fun h => ⟨h0, (Utf8.encode_of_decode h).symm⟩
    · rintro ⟨-, rfl⟩
      exact Utf8.decode_encode cs

/-- Text after its length is read back, whatever follows. -/
theorem reads_chars (hw : 0 < w) {cs : List Char} (h0 : (0 : UInt8) ∉ Utf8.encode cs) (h : charsBytes w o cs = .ok bs) :
    Reads (Get.chars w o) p bs cs := by
  obtain ⟨length, hl, rfl⟩ := charsBytes_eq_ok.1 h
  rw [lengthBytes, if_neg hw.ne'] at hl
  unfold Get.chars
  simp only [if_neg hw.ne']
  refine (reads_int hw hl).bind ((reads_readBytes rfl).bind ((reads_readByte 0).bind_nil ?_))
  rw [if_neg (not_not_intro rfl)]
  rw [pure_bind, charsOfBytes_eq_ok.2 ⟨h0, rfl⟩]
  exact reads_pure cs

/-- Text without a length is read back from its window. -/
theorem takes_chars {cs : List Char} (h0 : (0 : UInt8) ∉ Utf8.encode cs) (h : charsBytes 0 o cs = .ok bs) :
    Takes (Get.chars 0 o) p bs cs := by
  obtain ⟨length, hl, rfl⟩ := charsBytes_eq_ok.1 h
  cases hl
  unfold Get.chars
  simp only [if_true]
  refine takes_readAll.bind ?_
  rw [if_neg (by simp), List.nil_append, List.dropLast_concat]
  rw [pure_bind, charsOfBytes_eq_ok.2 ⟨h0, rfl⟩]
  exact reads_pure cs

theorem finds_chars (w : Nat) (o : ByteOrder) :
    Finds (Get.chars w o) p fun bs cs => charsBytes w o cs = .ok bs ∧ (0 : UInt8) ∉ Utf8.encode cs := by
  have hchars {as : List UInt8} {q : Int} : Finds (Get.ofExcept ((charsOfBytes as).mapError .decode)) q
      fun bs cs => bs = [] ∧ as = Utf8.encode cs ∧ (0 : UInt8) ∉ Utf8.encode cs := by
    refine finds_ofExcept.mono fun bs cs h => ?_
    obtain ⟨rfl, h⟩ := h
    rw [mapError_eq_ok, charsOfBytes_eq_ok] at h
    exact ⟨rfl, h.2, h.2 ▸ h.1⟩
  unfold Get.chars
  by_cases hw : w = 0
  · simp only [if_pos hw]
    refine finds_readAll.bind fun bs as ha => ?_
    subst ha
    split
    · exact finds_fail
    · rename_i hlast
      refine hchars.mono fun ds cs h => ?_
      obtain ⟨rfl, hcs, h0⟩ := h
      refine ⟨charsBytes_eq_ok.2 ⟨[], if_pos hw, ?_⟩, h0⟩
      rw [List.append_nil, List.nil_append, ← hcs]
      exact (List.dropLast_append_getLast? 0 (not_not.1 hlast)).symm
  · simp only [if_neg hw]
    refine (finds_int (Nat.pos_of_ne_zero hw)).bind fun ls n hl => ?_
    refine finds_readBytes.bind fun bs as ha => ?_
    obtain ⟨rfl, hlen⟩ := ha
    refine finds_readByte.bind fun es e he => ?_
    subst he
    split
    · exact finds_fail
    · rename_i he
      refine hchars.mono fun ds cs h => ?_
      obtain ⟨rfl, rfl, h0⟩ := h
      refine ⟨charsBytes_eq_ok.2 ⟨ls, ?_, ?_⟩, h0⟩
      · rw [lengthBytes, if_neg hw, hlen]
        exact hl
      · rw [not_not.1 he, List.append_nil]

theorem zero_mem_ofString {s : String} : 0 ∈ Text.ofString s ↔ (0 : UInt8) ∈ Utf8.encode s.toList :=
  Utf8.zero_mem_encode.symm

theorem reads_string (hw : 0 < w) {s : String} (h0 : 0 ∉ Text.ofString s) (h : charsBytes w o s.toList = .ok bs) :
    Reads (Get.string w o) p bs s := by
  refine (reads_chars hw (mt zero_mem_ofString.2 h0) h).bind_nil ?_
  rw [String.ofList_toList]
  exact reads_pure s

theorem takes_string {s : String} (h0 : 0 ∉ Text.ofString s) (h : charsBytes 0 o s.toList = .ok bs) :
    Takes (Get.string 0 o) p bs s := by
  refine (takes_chars (mt zero_mem_ofString.2 h0) h).bind ?_
  rw [String.ofList_toList]
  exact reads_pure s

theorem finds_string (w : Nat) (o : ByteOrder) :
    Finds (Get.string w o) p fun bs s => charsBytes w o s.toList = .ok bs ∧ 0 ∉ Text.ofString s := by
  refine (finds_chars w o).map fun bs cs h => ?_
  rw [zero_mem_ofString, String.toList_ofList]
  exact h

theorem reads_objectPath (hw : 0 < w) {s : String} (h0 : 0 ∉ Text.ofString s)
    (hv : ObjectPath.isValid (Text.ofString s) = true) (h : charsBytes w o s.toList = .ok bs) :
    Reads (Get.objectPath w o) p bs s := by
  refine (reads_string hw h0 h).bind_nil ?_
  rw [if_pos hv]
  exact reads_pure s

theorem takes_objectPath {s : String} (h0 : 0 ∉ Text.ofString s) (hv : ObjectPath.isValid (Text.ofString s) = true)
    (h : charsBytes 0 o s.toList = .ok bs) : Takes (Get.objectPath 0 o) p bs s := by
  refine (takes_string h0 h).bind ?_
  rw [if_pos hv]
  exact reads_pure s

theorem finds_objectPath (w : Nat) (o : ByteOrder) :
    Finds (Get.objectPath w o) p fun bs s => charsBytes w o s.toList = .ok bs := by
  refine (finds_string w o).bind fun bs s h => ?_
  split
  · exact finds_pure (by rw [List.append_nil]; exact h.1)
  · exact finds_fail

/-! ### Signatures -/

theorem textBytes_ofString (s : String) : textBytes w o (Text.ofString s) = charsBytes w o s.toList := by
  rw [textBytes, if_pos (Text.isScalar_ofString s), Text.ofString, List.map_map]
  congr 1
  exact (List.map_congr_left fun c _ => Char.ofNat_toNat c).trans (List.map_id _)

theorem signatureBytes_eq_ok {prefixed : Bool} {s : String} :
    signatureBytes prefixed (Text.ofString s) = .ok bs ↔
      (Text.ofString s).length ≤ Limits.signatureLength ∧
        charsBytes (if prefixed then 1 else 0) .little s.toList = .ok bs := by
  rw [signatureBytes, textBytes_ofString]
  split
  · rename_i h
    simp only [reduceCtorEq, false_iff, not_and]
    omega
  · rename_i h
    exact ⟨fun hb => ⟨by omega, hb⟩, And.right⟩

theorem kind_of_signatureBytes {prefixed : Bool} {s : String}
    (h : signatureBytes prefixed (Text.ofString s) = .error e) : e.kind = .mismatch := by
  rw [signatureBytes, textBytes_ofString] at h
  split at h
  · cases h
    rfl
  · exact kind_of_charsBytes h

/-- A text that is a sequence of types is ASCII without a zero. -/
theorem mem_of_parseAll {r : Signature.Reading} {t : Text} {ts : List Ty} (h : Signature.parseAll r t = .ok ts)
    {c : Nat} (hc : c ∈ t) : 0 < c ∧ c < 0x80 := by
  obtain ⟨rfl, -⟩ := Signature.parseAll_eq_ok_iff.1 h
  exact Ty.mem_signatureOf hc

/-- How a signature is read once there is no more input than one can take. -/
def signatureWithin (w : Nat) (format : Option WireFormat) : Get String := do
  let s ← Get.string w .little
  match Signature.parseAll { format } (Text.ofString s) with
  | .ok _ => return s
  | .error e => Get.fail (.invalidSignature e)

theorem signature_apply (prefixed : Bool) (format : Option WireFormat) (src : Source) :
    Get.signature prefixed format src =
      if !prefixed && Limits.signatureLength + 1 < src.rest.length then Get.fail .signatureTooLong src
      else signatureWithin (if prefixed then 1 else 0) format src := by
  change (if _ then _ else _ : Get String) src = _
  split <;> rfl

variable {format : Option WireFormat} {s : String} {ts : List Ty}

theorem reads_signature (hp : Signature.parseAll { format } (Text.ofString s) = .ok ts)
    (h : signatureBytes true (Text.ofString s) = .ok bs) : Reads (Get.signature true format) p bs s := by
  have h0 : 0 ∉ Text.ofString s := fun hc => absurd (mem_of_parseAll hp hc).1 (lt_irrefl 0)
  have hread : Reads (signatureWithin 1 format) p bs s := by
    refine (reads_string Nat.one_pos h0 (signatureBytes_eq_ok.1 h).2).bind_nil ?_
    rw [hp]
    exact reads_pure s
  intro rest
  rw [signature_apply]
  exact hread rest

theorem takes_signature (hp : Signature.parseAll { format } (Text.ofString s) = .ok ts)
    (h : signatureBytes false (Text.ofString s) = .ok bs) : Takes (Get.signature false format) p bs s := by
  obtain ⟨hlen, h⟩ := signatureBytes_eq_ok.1 h
  have h0 : 0 ∉ Text.ofString s := fun hc => absurd (mem_of_parseAll hp hc).1 (lt_irrefl 0)
  have hread : Takes (signatureWithin 0 format) p bs s := by
    refine (takes_string h0 h).bind ?_
    rw [hp]
    exact reads_pure s
  -- one byte for each character, and the zero at the end
  have hsize : bs.length = (Text.ofString s).length + 1 := by
    obtain ⟨length, hl, rfl⟩ := charsBytes_eq_ok.1 h
    cases hl
    rw [Utf8.encode_of_ascii s.toList fun c hc => (mem_of_parseAll hp (List.mem_map_of_mem hc)).2]
    simp [Text.ofString]
  unfold Takes
  rw [signature_apply, if_neg (by simp only [Bool.not_false, Bool.true_and, decide_eq_true_eq]; omega)]
  exact hread

theorem finds_signature (prefixed : Bool) (format : Option WireFormat) :
    Finds (Get.signature prefixed format) p fun bs s =>
      signatureBytes prefixed (Text.ofString s) = .ok bs ∧
        ∃ ts, Signature.parseAll { format } (Text.ofString s) = .ok ts := by
  have hfind : Finds (signatureWithin (if prefixed then 1 else 0) format) p fun bs s =>
      signatureBytes prefixed (Text.ofString s) = .ok bs ∧
        ∃ ts, Signature.parseAll { format } (Text.ofString s) = .ok ts := by
    refine (finds_string _ _).bind fun bs s hs => ?_
    cases hp : Signature.parseAll { format } (Text.ofString s) with
    | error e => exact finds_fail
    | ok ts =>
      refine finds_pure ?_
      rw [List.append_nil, signatureBytes_eq_ok]
      exact ⟨⟨(Signature.parseAll_eq_ok_iff.1 hp).2.1, hs.1⟩, ts, hp⟩
  intro data a s hs
  rw [signature_apply] at hs
  split at hs
  · cases hs
  · exact hfind data a s hs

end Marshal
