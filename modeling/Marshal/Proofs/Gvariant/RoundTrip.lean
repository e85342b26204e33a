import Marshal.Proofs.Framing.Children
import Marshal.Proofs.Gvariant.Reading
import Marshal.Proofs.Refusal
/-!
# GVariant values are read back

The cells of a container put every child into the window that the reader finds (`exists_tuple_iff`,
`exists_collection_iff`), and there the child is read back by itself (`answersBack`). What can go wrong is that the
signature of what a variant holds is refused; `readsBack` is about the values for which none is.
-/
namespace Marshal.Gvariant

open Cell Get Framing

variable {c : Codec} {p : Int} {bs : List UInt8} {room : Nat}

/-- What a reader makes of the signature of a type. -/
def readSignature (c : Codec) (t : Ty) : Except DecodeError Ty := signatureType c (t.signature.map UInt8.ofNat)

theorem readSignature_eq_ok (hc : c.format = .gvariant) {t : Ty} (hf : t.isFormed = true) (he : t.isEntry = false)
    (hl : t.signature.length ≤ Limits.signatureLength) (hn : (t.nesting : Int) ≤ c.maxDepth) :
    readSignature c t = .ok t := by
  have hformat : c.reading.format = some .dbus → t.mentionsMaybe = false := by
    intro h
    rw [Codec.reading, hc] at h
    cases h
  exact signatureType_eq_ok.2 ⟨rfl, hl, Signature.accepts_of_isFormed hf he hn hformat⟩

/-- A signature is read as the one type that has it. -/
theorem eq_of_readSignature {t u : Ty} (hf : t.isFormed = true) (he : t.isEntry = false)
    (h : readSignature c t = .ok u) : u = t := by
  obtain ⟨htext, hlen, hacc⟩ := signatureType_eq_ok.1 h
  rw [← map_toNat_eq_signature_iff, map_toNat_eq_signature_iff.2 rfl] at htext
  refine Signature.eq_of_parse (r := c.reading) hf he (Signature.parse_eq_ok_iff.2 ⟨htext, ?_, hacc⟩)
  rwa [htext]

/-- That a reader gives a value for the bytes of its cells, wherever these are aligned. -/
def ReadsBack (c : Codec) (room : Nat) (v : Value) : Prop :=
  ∀ (p : Int) (cs : List Cell) (bs : List UInt8), (v.ty.gvariantAlignment : Int) ∣ p → cells c room v = .ok cs →
    Matches cs bs → inside p bs (get c room v.ty) = .ok v

/-- That it does so unless it refuses the signature of what a variant holds. -/
def AnswersBack (c : Codec) (room : Nat) (v : Value) : Prop :=
  ∀ (p : Int) (cs : List Cell) (bs : List UInt8), (v.ty.gvariantAlignment : Int) ∣ p → cells c room v = .ok cs →
    Matches cs bs → Answers (readSignature c) v.heldTypes v (inside p bs (get c room v.ty))

/-- The members of a struct or dict entry are read back. -/
theorem answers_getMembers {members : List Value} {cs : List Cell} (hne : members ≠ [])
    (hp : (Ty.gvariantAlignments (Value.tys members) : Int) ∣ p) (hread : ∀ v ∈ members, AnswersBack c room v)
    (h : memberCells (cells c room) members = .ok cs) (hm : Matches cs bs) :
    Answers (readSignature c) (Value.heldTypesOf members) members
      (run (getMembers (get c room) (Value.tys members)) ⟨p, bs, []⟩) := by
  obtain ⟨ws, hws, hholds, -⟩ := (exists_members_iff hne).1 ⟨cs, h, hm⟩
  have hstart := dvd_start_of_windows hws
  rw [Value.tys_eq_map, List.forall₂_map_left_iff] at hstart
  have hmem : ∀ v ∈ members, (v.ty.gvariantAlignment : Int) ∣ p ∧ AnswersBack c room v := by
    refine fun v hv => ⟨Int.dvd_trans (Int.natCast_dvd_natCast.2 ?_) hp, hread v hv⟩
    rw [Value.tys_eq_map]
    exact Ty.dvd_gvariantAlignments (List.mem_map_of_mem hv)
  have hinside : List.Forall₂ (fun v w => Answers (readSignature c) v.heldTypes v
      (inside (p + w.start) (w.slice bs) (get c room v.ty))) members ws := by
    refine List.Forall₂.mp (fun v w hw h => ?_) hstart ((List.forall₂_and_left _ _).2 ⟨hmem, hholds⟩)
    obtain ⟨⟨hv, hback⟩, cs, hcs, hm⟩ := h
    exact hback _ cs _ (Int.dvd_add hv (Int.natCast_dvd_natCast.2 hw)) hcs hm
  have hlen : (Value.tys members).length = ws.length := by
    rw [Value.tys_eq_map, List.length_map]
    exact hinside.length_eq
  have hzip := (forall₂_zip_iff (R := fun w t v => Answers (readSignature c) v.heldTypes v
    (inside (p + w.start) (w.slice bs) (get c room t))) hlen).2 ⟨rfl, hinside⟩
  rw [run_getMembers_eq hws]
  exact answers_mapM (hzip.imp fun m v h => h.1)

/-- The elements of an array are read back. -/
theorem answers_getElements {t : Ty} {items : List Value} {cs : List Cell} (ht : t.isFormed = true)
    (hp : (t.gvariantAlignment : Int) ∣ p) (hread : ∀ v ∈ items, v.ty = t ∧ AnswersBack c room v)
    (h : elementCells (cells c room) t items = .ok cs) (hm : Matches cs bs) :
    Answers (readSignature c) (Value.heldTypesOf items) items
      (run (getElements (Layout.ofTy t) (get c room t)) ⟨p, bs, []⟩) := by
  have hz : t.fixedSize = some 0 → items = [] := fun h0 => absurd (Ty.fixedSize_pos ht h0) (lt_irrefl 0)
  obtain ⟨ws, hws, hholds, -⟩ := (exists_elements_iff (fun v hv => (hread v hv).1) hz).1 ⟨cs, h, hm⟩
  have hstart := dvd_start_of_elementWindows hws
  have hinside := (List.forall₂_and_left _ _).2 ⟨hstart, ((List.forall₂_and_left _ _).2 ⟨hread, hholds⟩).flip⟩
  rw [run_getElements_eq hws]
  refine answers_mapM (hinside.imp fun w v h => ?_)
  obtain ⟨hw, ⟨rfl, hback⟩, cs, hcs, hm⟩ := h
  exact hback _ cs _ (Int.dvd_add hp (Int.natCast_dvd_natCast.2 hw)) hcs hm

/-- A variant is read back as what it holds, unless its signature is refused. -/
theorem answersBack_variant {w : Value} (hw : w.isWellFormed = true) (he : w.ty.isEntry = false)
    (hread : AnswersBack c room w) : AnswersBack c (room + 1) (.variant w) := by
  intro p cs bs hp h hm
  obtain ⟨body, hbody, rfl⟩ := except_map_eq_ok.1 h
  obtain ⟨value, signature, rfl, hvalue, hsignature⟩ := matches_append_iff.1 hm
  rw [matches_given_iff] at hsignature
  subst hsignature
  have hp' : (w.ty.gvariantAlignment : Int) ∣ p :=
    Int.dvd_trans (Int.natCast_dvd_natCast.2 w.ty.gvariantAlignment_dvd_eight) hp
  have hinside := hread p body value hp' hbody hvalue
  rw [Value.ty, inside_variant hp (splitVariant_signature value w.ty), ← readSignature]
  cases hr : readSignature c w.ty with
  | error d => exact .refuses List.mem_cons_self hr
  | ok t =>
    obtain rfl := eq_of_readSignature (Value.isFormed_ty hw) he hr
    exact hinside.map.cons hr

/-- A maybe that holds a value is not empty: either the value takes a byte or a zero stands behind it. -/
theorem answersBack_just {w : Value} (hw : w.isWellFormed = true) (hread : AnswersBack c room w) :
    AnswersBack c (room + 1) (.just w) := by
  intro p cs bs hp h hm
  obtain ⟨content, hcontent, rfl⟩ := except_map_eq_ok.1 h
  obtain ⟨value, rest, rfl, hvalue, hrest⟩ := matches_append_iff.1 hm
  rw [matches_given_iff] at hrest
  subst hrest
  have hp' : (w.ty.gvariantAlignment : Int) ∣ p := by rwa [Value.ty, Ty.gvariantAlignment] at hp
  have hinside := hread p content value hp' hcontent hvalue
  have hne : value ++ justEnd w.ty ≠ [] := by
    unfold justEnd
    cases hn : w.ty.fixedSize with
    | none => simp
    | some n =>
      have hpos := Ty.fixedSize_pos (Value.isFormed_ty hw) hn
      rw [← length_cells c hn hcontent, hvalue.length_eq] at hpos
      simpa using List.ne_nil_of_length_pos hpos
  rw [Value.ty, inside_just hp hne]
  exact hinside.map

/-- **A well-formed value is read back from its cells**, as far as the signatures of what its variants hold are
accepted. -/
theorem answersBack (c : Codec) : ∀ (room : Nat) {v : Value}, v.isWellFormed = true → AnswersBack c room v
  | 0, _, _ => by
    intro p cs bs hp h hm
    cases h
  | room + 1, v, hv => by
    have ih {w : Value} (hw : w.isWellFormed = true) : AnswersBack c room w := answersBack c room hw
    cases v with
    | scalar s =>
      intro p cs bs hp h hm
      obtain ⟨bytes, hs, rfl⟩ := except_map_eq_ok.1 h
      rw [matches_given_iff] at hm
      subst hm
      rw [Value.ty, inside_scalar hp hv hs]
      exact answers_ok _
    | array t items =>
      intro p cs bs hp h hm
      simp only [Value.isWellFormed, Ty.isFormed, Bool.and_eq_true, Value.areOf_iff] at hv
      rw [Value.ty, inside_array hp]
      refine (answers_getElements hv.1.1 ?_ (fun w hw => ?_) h hm).map
      · rwa [Value.ty, Ty.gvariantAlignment] at hp
      · obtain ⟨hw1, hw2⟩ := hv.2 w hw
        exact ⟨hw2, ih hw1⟩
    | struct members =>
      intro p cs bs hp h hm
      simp only [Value.isWellFormed, Bool.and_eq_true, Value.areWellFormed_iff] at hv
      have hne : members ≠ [] := by
        rintro rfl
        simp [Ty.isFormed, Value.tys] at hv
      have halign := hp
      rw [alignment_struct] at halign
      rw [Value.ty, inside_struct hp]
      exact (answers_getMembers hne halign (fun w hw => ih (hv.2 w hw)) h hm).map
    | entry k w =>
      intro p cs bs hp h hm
      simp only [Value.isWellFormed, Bool.and_eq_true] at hv
      have hread : ∀ u ∈ [.scalar k, w], AnswersBack c room u := by
        intro u hu
        rcases List.mem_pair.1 hu with rfl | rfl
        · exact ih hv.1.2
        · exact ih hv.2
      have halign := hp
      rw [alignment_entry] at halign
      have hmembers := answers_getMembers (List.cons_ne_nil (Value.scalar k) [w]) halign hread h hm
      rw [Value.ty, inside_entry hp]
      have hall := hmembers.map (f := entryOf)
      simp only [Value.heldTypesOf, Value.heldTypes, List.nil_append, List.append_nil] at hall
      exact hall
    | variant w =>
      simp only [Value.isWellFormed, Bool.and_eq_true, Bool.not_eq_true'] at hv
      exact answersBack_variant hv.2 hv.1 (ih hv.2)
    | nothing t =>
      intro p cs bs hp h hm
      cases h
      rw [matches_nil_iff] at hm
      subst hm
      rw [Value.ty, inside_nothing hp]
      exact answers_ok _
    | just w =>
      simp only [Value.isWellFormed, Bool.and_eq_true] at hv
      exact answersBack_just hv.2 (ih hv.2)

theorem readsBack (hc : c.format = .gvariant) (room : Nat) {v : Value} (hv : v.isWellFormed = true)
    (ht : ∀ t ∈ v.heldTypes, t.signature.length ≤ Limits.signatureLength ∧ (t.nesting : Int) ≤ c.maxDepth) :
    ReadsBack c room v := by
  intro p cs bs hp h hm
  refine (answersBack c room hv p cs bs hp h hm).eq_ok_iff.2 fun t hmem => ?_
  obtain ⟨hf, he⟩ := Value.formed_of_mem_heldTypes v hv t hmem
  obtain ⟨hl, hn⟩ := ht t hmem
  exact readSignature_eq_ok hc hf he hl hn

/-- **An encoded value is decoded to itself.** The types that its variants hold have to be no longer and no more deeply
nested than the reader allows. -/
theorem decode_of_encode {c : Codec} (hc : c.format = .gvariant) {v : Value} (hv : v.isWellFormed = true)
    (hl : ∀ t ∈ v.heldTypes, t.signature.length ≤ Limits.signatureLength)
    (hn : ∀ t ∈ v.heldTypes, (t.nesting : Int) ≤ c.maxDepth) {b : Array UInt8} (h : c.encode none v = .ok b) :
    c.decode none b.toList v.ty = .ok v := by
  rw [encode_eq hc (Value.isTyped_of_isWellFormed v hv)] at h
  obtain ⟨cs, hcs, rfl⟩ := except_map_eq_ok.1 h
  rw [decode_eq hc]
  exact readsBack hc c.room hv (fun t ht => ⟨hl t ht, hn t ht⟩) 0 cs _ (Int.dvd_zero _) hcs (matches_render cs)

/-- Nothing and an empty text between members that need padding, and a variant that holds a dict entry's array. -/
theorem decode_of_encode_nested :
    let c : Codec := { format := .gvariant, order := .big }
    let v : Value := .struct [.just (.scalar (.text .string "")), .nothing (.array .variant), .scalar (.int .uint64 1),
      .variant (.array (.entry .double .variant) [.entry (.double 0) (.variant (.nothing .variant))])]
    v.isWellFormed = true ∧ (∀ t ∈ v.heldTypes, t.signature.length ≤ Limits.signatureLength) ∧
      (∀ t ∈ v.heldTypes, (t.nesting : Int) ≤ c.maxDepth) ∧
        ∃ b, c.encode none v = .ok b ∧ c.decode none b.toList v.ty = .ok v := by
  intro c v
  have hv : v.isWellFormed = true := by decide
  have hl : ∀ t ∈ v.heldTypes, t.signature.length ≤ Limits.signatureLength := by decide
  have hn : ∀ t ∈ v.heldTypes, (t.nesting : Int) ≤ c.maxDepth := by decide
  obtain ⟨b, h⟩ : ∃ b, c.encode none v = .ok b := by
    simp only [c, v]
    exact ⟨_, rfl⟩
  exact ⟨hv, hl, hn, b, h, decode_of_encode rfl hv hl hn h⟩

end Marshal.Gvariant
