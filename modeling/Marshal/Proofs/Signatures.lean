import Mathlib.Tactic
import Marshal.Error
import Marshal.Proofs.Formation
import Marshal.Proofs.Grammar
/-!
# The signatures of each format

`Signature.parse` gives a type for exactly the texts that are its signature, within the limits. D-Bus leaves out the
types that mention maybe, and says so: its reader takes the same steps as the reader for no format up to the first maybe
type, so a text that is a signature for no format only is refused there for that reason (`readType_of_mentionsMaybe`).
-/
namespace Marshal.Signature

theorem accepts_dbus_iff {d : Int} {s : Surroundings} {t : Ty} :
    Accepts ⟨some .dbus, d⟩ s t ↔ Accepts ⟨none, d⟩ s t ∧ t.mentionsMaybe = false :=
  ⟨fun ⟨h1, h2, h3, h4, h5, h6⟩ => ⟨⟨h1, h2, h3, h4, h5, nofun⟩, h6 rfl⟩,
    fun ⟨⟨h1, h2, h3, h4, h5, _⟩, h6⟩ => ⟨h1, h2, h3, h4, h5, fun _ => h6⟩⟩

/-- What it takes for a type to stand alone: that it is constructed, no entry, and within the limits of the reading. -/
theorem accepts_iff_constructed {format : Option WireFormat} {d : Nat} {t : Ty} :
    Accepts ⟨format, d⟩ {} t ↔
      t.Constructed ∧ t.isEntry = false ∧ t.nesting ≤ d ∧ (format = some .dbus → t.mentionsMaybe = false) := by
  rw [Ty.constructed_iff]
  constructor
  · intro h
    refine ⟨h.isFormed, h.isEntry_eq_false rfl, ?_, h.maybes⟩
    have := h.nesting
    simp only [Nat.zero_add, Nat.cast_le] at this
    omega
  · rintro ⟨h1, h2, h3, h4⟩
    exact accepts_of_isFormed h1 h2 (Int.ofNat_le.2 h3) h4

/-! ## Refusals pass through the containers around them -/

section
variable {r : Reading} {s : Surroundings} {n p : Nat} {rest : Text} {e : Refusal}

theorem readType_array_error (h1 : Opens r s) (h2 : s.arrays < Limits.arrayDepth)
    (h : readType r n s.inElement ⟨p + 1, rest⟩ = .error e) :
    readType r (n + 1) s ⟨p, Symbol.array.code :: rest⟩ = .error e := by
  have h1' := not_le_of_gt h1
  have h2' := not_le_of_gt h2
  rw [Surroundings.inElement] at h
  simp only [readType, peek, bind, Except.bind, Symbol.ofCode?_code, skip, List.tail_cons, h1', h2', if_false, h]

theorem readType_maybe_error (h1 : Opens r s) (h2 : r.format = some .dbus) :
    readType r (n + 1) s ⟨p, Symbol.maybe.code :: rest⟩ = .error .maybeUnsupported := by
  have h1' := not_le_of_gt h1
  simp only [readType, peek, bind, Except.bind, Symbol.ofCode?_code, h1', h2, if_false, if_true]

theorem readType_struct_error (h1 : Opens r s) (h2 : s.structs < Limits.structDepth)
    (h : readFields (readType r n s.inStruct) n ⟨p + 1, rest⟩ = .error e) :
    readType r (n + 1) s ⟨p, Symbol.openStruct.code :: rest⟩ = .error e := by
  have h1' := not_le_of_gt h1
  have h2' := not_le_of_gt h2
  rw [Surroundings.inStruct] at h
  simp only [readType, peek, bind, Except.bind, Symbol.ofCode?_code, skip, List.tail_cons, h1', h2', if_false, h]

theorem readType_entry_error {k : Basic} {c : Cursor} (h1 : Opens r s) (h2 : s.inArray = true)
    (h3 : s.structs < Limits.structDepth) (hk : readType r n s.inStruct ⟨p + 1, rest⟩ = .ok (.basic k, c))
    (h : readType r n s.inStruct c = .error e) :
    readType r (n + 1) s ⟨p, Symbol.openEntry.code :: rest⟩ = .error e := by
  have h1' := not_le_of_gt h1
  have h3' := not_le_of_gt h3
  rw [Surroundings.inStruct] at hk h
  simp only [readType, peek, bind, Except.bind, Symbol.ofCode?_code, skip, List.tail_cons, h1', h2, h3', hk, h,
    Bool.not_true, Bool.false_eq_true, if_false]

theorem readFields_error {read : Reader Ty} {code : CodePoint} (hc : code ≠ Symbol.closeStruct.code)
    (h : read ⟨p, code :: rest⟩ = .error e) : readFields read (n + 1) ⟨p, code :: rest⟩ = .error e := by
  rw [readFields]
  simp only [peek, bind, Except.bind, hc, if_false, h]

theorem readFields_error_tail {read : Reader Ty} {code : CodePoint} {t : Ty} {c : Cursor}
    (hc : code ≠ Symbol.closeStruct.code) (ht : read ⟨p, code :: rest⟩ = .ok (t, c))
    (h : readFields read n c = .error e) : readFields read (n + 1) ⟨p, code :: rest⟩ = .error e := by
  rw [readFields]
  simp only [peek, bind, Except.bind, hc, if_false, ht, h]

end

mutual
/-- **A type that only its maybe types keep out of D-Bus is refused for them.** -/
theorem readType_of_mentionsMaybe (d : Int) : ∀ (t : Ty) (n : Nat) (s : Surroundings) (p : Nat) (rest : Text),
    Accepts ⟨none, d⟩ s t → t.mentionsMaybe = true → t.signature.length ≤ n →
      readType ⟨some .dbus, d⟩ n s ⟨p, t.signature ++ rest⟩ = .error .maybeUnsupported
  | t, 0, _, _, _, _, _, hn => absurd hn (Nat.not_le.2 t.length_signature_pos)
  | .basic _, _ + 1, _, _, _, _, hm, _ | .variant, _ + 1, _, _, _, _, hm, _ => by cases hm
  | .array t, n + 1, s, p, rest, h, hm, hn => by
    obtain ⟨h1, h2, h3⟩ := accepts_array_iff.1 h
    rw [Ty.signature_array, List.length_cons] at *
    have ih := readType_of_mentionsMaybe d t n s.inElement (p + 1) rest h3 hm (by omega)
    exact readType_array_error h1 h2 ih
  | .maybe t, n + 1, s, p, rest, h, _, _ => by
    rw [Ty.signature_maybe]
    exact readType_maybe_error (accepts_maybe_iff.1 h).1 rfl
  | .struct ts, n + 1, s, p, rest, h, hm, hn => by
    obtain ⟨h1, h2, -, h4⟩ := accepts_struct_iff.1 h
    rw [Ty.signature_struct, List.length_cons, List.length_append] at *
    have ih := readFields_of_mentionMaybe d ts n n s.inStruct (p + 1) rest h4 hm (by omega) (by omega)
    rw [List.cons_append, List.append_assoc]
    exact readType_struct_error h1 h2 ih
  | .entry k t, n + 1, s, p, rest, h, hm, hn => by
    obtain ⟨h1, h2, h3, h4⟩ := accepts_entry_iff.1 h
    rw [Ty.signature_entry, List.length_cons, List.length_cons, List.length_append] at *
    have ih := readType_of_mentionsMaybe d t n s.inStruct (p + 1 + 1) (Symbol.closeEntry.code :: rest) h4 hm
      (by omega)
    obtain ⟨m, rfl⟩ : ∃ m, n = m + 1 := ⟨n - 1, by omega⟩
    rw [List.cons_append, List.cons_append, List.append_assoc]
    exact readType_entry_error h1 h2 h3 (readType_basic.2 ⟨rfl, rfl⟩) ih

theorem readFields_of_mentionMaybe (d : Int) : ∀ (ts : List Ty) (n m : Nat) (s : Surroundings) (p : Nat) (rest : Text),
    (∀ t ∈ ts, Accepts ⟨none, d⟩ s t) → Ty.mentionMaybe ts = true → (Ty.signatureOf ts).length ≤ n →
      (Ty.signatureOf ts).length ≤ m →
        readFields (readType ⟨some .dbus, d⟩ n s) m ⟨p, Ty.signatureOf ts ++ Symbol.closeStruct.code :: rest⟩ =
          .error .maybeUnsupported
  | [], _, _, _, _, _, _, hm, _, _ => by cases hm
  | t :: ts, n, m, s, p, rest, h, hm, hn, hl => by
    have hpos := t.length_signature_pos
    obtain ⟨ht, hts⟩ := List.forall_mem_cons.1 h
    rw [Ty.signatureOf_cons, List.length_append] at *
    obtain ⟨m, rfl⟩ : ∃ l, m = l + 1 := ⟨m - 1, by omega⟩
    obtain ⟨x, text, hx, hs, -⟩ := t.exists_signature_eq_cons
    have hc : x.code ≠ Symbol.closeStruct.code := fun hc => hs (Symbol.code_injective hc)
    rw [List.append_assoc]
    cases hmt : t.mentionsMaybe with
    | true =>
      have ih := readType_of_mentionsMaybe d t n s p (Ty.signatureOf ts ++ Symbol.closeStruct.code :: rest) ht hmt
        (by omega)
      rw [hx, List.cons_append] at ih ⊢
      exact readFields_error hc ih
    | false =>
      have hr := readType_of_accepts ⟨some .dbus, d⟩ t n s p (Ty.signatureOf ts ++ Symbol.closeStruct.code :: rest)
        (accepts_dbus_iff.2 ⟨ht, hmt⟩) (by omega)
      rw [Ty.mentionMaybe, hmt, Bool.false_or] at hm
      have ih := readFields_of_mentionMaybe d ts n m s (p + t.signature.length) rest hts hm (by omega) (by omega)
      rw [hx, List.cons_append] at hr ⊢
      rw [← hx] at hr
      exact readFields_error_tail hc hr ih
end

/-- **A signature for no format that is none for D-Bus is refused for the maybe types in it.** -/
theorem parse_of_mentionsMaybe {d : Int} {text : Text} {t : Ty} (h : parse ⟨none, d⟩ text = .ok t)
    (hm : t.mentionsMaybe = true) : parse ⟨some .dbus, d⟩ text = .error (.maybeUnsupported text) := by
  obtain ⟨rfl, hl, ht⟩ := parse_eq_ok_iff.1 h
  have hr := readType_of_mentionsMaybe d t t.signature.length {} 0 [] ht hm le_rfl
  rw [List.append_nil] at hr
  rw [parse, if_neg (by omega), hr]
  rfl

theorem kind_of_parse_error (e : SignatureError) : e.kind = .malformedSignature ∨ e.kind = .unsupportedType := by
  cases e with
  | maybeUnsupported => exact .inr rfl
  | _ => exact .inl rfl

/-- **`parse` accepts exactly the grammar and inverts `Ty.signature`.** A text gives a type when the type comes out of
the formation functions, is not a bare dict entry, has the text as its signature, and keeps to the limit on length, to
the given depth and to the types of the format. Every other text is refused as malformed or for a type that is not
supported, and for the latter when D-Bus alone stands in the way. -/
theorem parse_iff_signature (format : Option WireFormat) (d : Nat) (text : Text) :
    (∀ t, parse ⟨format, d⟩ text = .ok t ↔
      t.Constructed ∧ t.isEntry = false ∧ t.signature = text ∧ text.length ≤ Limits.signatureLength ∧ t.nesting ≤ d ∧
        (format = some .dbus → t.mentionsMaybe = false)) ∧
    ((∀ t, parse ⟨format, d⟩ text ≠ .ok t) → ∃ e, parse ⟨format, d⟩ text = .error e ∧
      (e.kind = .malformedSignature ∨ e.kind = .unsupportedType) ∧
      (format = some .dbus → (∃ t, parse ⟨none, d⟩ text = .ok t) → e.kind = .unsupportedType)) := by
  constructor
  · intro t
    rw [parse_eq_ok_iff, accepts_iff_constructed]
    constructor
    · rintro ⟨h1, h2, h3, h4, h5, h6⟩
      exact ⟨h3, h4, h1.symm, h2, h5, h6⟩
    · rintro ⟨h1, h2, h3, h4, h5, h6⟩
      exact ⟨h3.symm, h4, h1, h2, h5, h6⟩
  · intro h
    cases he : parse ⟨format, d⟩ text with
    | ok t => exact absurd he (h t)
    | error e =>
      refine ⟨e, rfl, kind_of_parse_error e, ?_⟩
      rintro rfl ⟨t, ht⟩
      have hm : t.mentionsMaybe = true := by
        by_contra hm
        obtain ⟨h1, h2, h3⟩ := parse_eq_ok_iff.1 ht
        exact h t (parse_eq_ok_iff.2 ⟨h1, h2, accepts_dbus_iff.2 ⟨h3, Bool.not_eq_true _ ▸ hm⟩⟩)
      rw [parse_of_mentionsMaybe ht hm] at he
      cases he
      rfl

theorem parse_iff_signature_maybe_in_array :
    (∀ t, parse ⟨some .dbus, (64 : Nat)⟩ (Text.ofString "(yami)") ≠ .ok t) ∧
      ∃ e, parse ⟨some .dbus, (64 : Nat)⟩ (Text.ofString "(yami)") = .error e ∧ e.kind = .unsupportedType := by
  have hne : ∀ t, parse ⟨some .dbus, (64 : Nat)⟩ (Text.ofString "(yami)") ≠ .ok t := by
    intro t h
    cases h
  obtain ⟨e, he, -, hk⟩ := (parse_iff_signature (some .dbus) 64 (Text.ofString "(yami)")).2 hne
  exact ⟨hne, e, he, hk rfl ⟨.struct [.byte, .array (.maybe (.basic (.int .int32)))], rfl⟩⟩

/-! ## Sequences of types -/

theorem signatureOf_append (ts us : List Ty) : Ty.signatureOf (ts ++ us) = Ty.signatureOf ts ++ Ty.signatureOf us := by
  induction ts with
  | nil => rfl
  | cons t ts ih => rw [List.cons_append, Ty.signatureOf_cons, Ty.signatureOf_cons, ih, List.append_assoc]

theorem parseAll_append {r : Reading} {a b : Text} {ts us : List Ty} (ha : parseAll r a = .ok ts)
    (hb : parseAll r b = .ok us) (hl : (a ++ b).length ≤ Limits.signatureLength) :
    parseAll r (a ++ b) = .ok (ts ++ us) := by
  obtain ⟨rfl, -, hts⟩ := parseAll_eq_ok_iff.1 ha
  obtain ⟨rfl, -, hus⟩ := parseAll_eq_ok_iff.1 hb
  exact parseAll_eq_ok_iff.2 ⟨(signatureOf_append ts us).symm, hl, List.forall_mem_append.2 ⟨hts, hus⟩⟩

/-- **No two sequences of types have the same signature**, however long or deep: the reader, which has no limit on
length, gives both back with any limit on depth that they keep to. -/
theorem eq_of_signatureOf_eq {ts us : List Ty} (hts : ∀ t ∈ ts, t.isFormed = true ∧ t.isEntry = false)
    (hus : ∀ u ∈ us, u.isFormed = true ∧ u.isEntry = false) (h : Ty.signatureOf ts = Ty.signatureOf us) : ts = us := by
  let r : Reading := ⟨none, (max (Ty.nestings ts) (Ty.nestings us) : Nat)⟩
  let n := (Ty.signatureOf us).length
  have haccepts {vs : List Ty} (hvs : ∀ v ∈ vs, v.isFormed = true ∧ v.isEntry = false)
      (hle : Ty.nestings vs ≤ max (Ty.nestings ts) (Ty.nestings us)) : ∀ v ∈ vs, Accepts r {} v := fun v hv =>
    accepts_of_isFormed (hvs v hv).1 (hvs v hv).2 (Int.ofNat_le.2 (Ty.nestings_le_iff.1 hle v hv)) nofun
  have h1 : readTypes (readType r n {}) n ⟨0, Ty.signatureOf ts⟩ = .ok ts :=
    readTypes_of_accepts n ts n 0 (haccepts hts (le_max_left _ _)) (by rw [h]) (by rw [h])
  have h2 : readTypes (readType r n {}) n ⟨0, Ty.signatureOf us⟩ = .ok us :=
    readTypes_of_accepts n us n 0 (haccepts hus (le_max_right _ _)) le_rfl le_rfl
  rw [h] at h1
  exact Except.ok.inj (h1.symm.trans h2)

/-- **`parseAll` and `Ty.signatureOf` are inverse to one another.** A text gives a sequence of types when each of them
comes out of the formation functions, is not a bare dict entry, and keeps to the depth and to the types of the format,
and their signatures make up the text, which is not too long. So what two texts give is what they give one after the
other, and without any limit a signature still tells the types that it is of. -/
theorem parseAll_iff_signatureOf (format : Option WireFormat) (d : Nat) :
    (∀ text ts, parseAll ⟨format, d⟩ text = .ok ts ↔
      text.length ≤ Limits.signatureLength ∧
        (∀ t ∈ ts, t.Constructed ∧ t.isEntry = false ∧ t.nesting ≤ d ∧
          (format = some .dbus → t.mentionsMaybe = false)) ∧
        Ty.signatureOf ts = text) ∧
    (∀ a b ts us, parseAll ⟨format, d⟩ a = .ok ts → parseAll ⟨format, d⟩ b = .ok us →
      (a ++ b).length ≤ Limits.signatureLength → parseAll ⟨format, d⟩ (a ++ b) = .ok (ts ++ us)) ∧
    ∀ ts us, (∀ t ∈ ts, t.Constructed ∧ t.isEntry = false) → (∀ u ∈ us, u.Constructed ∧ u.isEntry = false) →
      Ty.signatureOf ts = Ty.signatureOf us → ts = us := by
  refine ⟨fun text ts => ?_, fun a b ts us => parseAll_append, fun ts us hts hus => ?_⟩
  · simp only [parseAll_eq_ok_iff, accepts_iff_constructed]
    constructor
    · rintro ⟨h1, h2, h3⟩
      exact ⟨h2, h3, h1.symm⟩
    · rintro ⟨h1, h2, h3⟩
      exact ⟨h3.symm, h1, h2⟩
  · simp only [Ty.constructed_iff] at hts hus
    exact eq_of_signatureOf_eq hts hus

/-- A dictionary and a maybe, read one after the other and at once; a struct of the two is another type, and only by its
brackets. -/
theorem parseAll_iff_signatureOf_dictionary :
    let entry : Ty := .entry (.text .string) .variant
    let maybe : Ty := .maybe (.array (.basic (.int .int32)))
    parseAll ⟨some .gvariant, (2 : Nat)⟩ (Text.ofString "a{sv}") = .ok [.array entry] ∧
      parseAll ⟨some .gvariant, (2 : Nat)⟩ (Text.ofString "mai") = .ok [maybe] ∧
      parseAll ⟨some .gvariant, (2 : Nat)⟩ (Text.ofString "a{sv}mai") = .ok [.array entry, maybe] ∧
      ((Ty.struct [.array entry, maybe]).Constructed ∧ (Ty.struct [.array entry, maybe]).isEntry = false) ∧
      Ty.signatureOf [.struct [.array entry, maybe]] ≠ Ty.signatureOf [.array entry, maybe] := by
  intro entry maybe
  obtain ⟨hread, happend, hinjective⟩ := parseAll_iff_signatureOf (some .gvariant) 2
  have hformed : ∀ t ∈ [.array entry, maybe], t.Constructed ∧ t.isEntry = false := by
    simp only [Ty.constructed_iff]
    decide
  have hstruct : ∀ t ∈ [Ty.struct [.array entry, maybe]], t.Constructed ∧ t.isEntry = false := by
    simp only [Ty.constructed_iff]
    decide
  have ha : parseAll ⟨some .gvariant, (2 : Nat)⟩ (Text.ofString "a{sv}") = .ok [.array entry] :=
    (hread _ _).2 ⟨by decide, fun t ht => by
      obtain rfl := List.mem_singleton.1 ht
      exact ⟨(hformed _ List.mem_cons_self).1, rfl, by decide, nofun⟩, rfl⟩
  have hb : parseAll ⟨some .gvariant, (2 : Nat)⟩ (Text.ofString "mai") = .ok [maybe] := rfl
  refine ⟨ha, hb, happend _ _ _ _ ha hb (by decide), hstruct _ List.mem_cons_self, fun h => ?_⟩
  exact absurd (hinjective _ _ hstruct hformed h) (by decide)

end Marshal.Signature
