import Marshal.Proofs.Dbus.Extent
import Marshal.Proofs.Refusal
/-!
# D-Bus values are read back

The reader is led through the cells of a value (`gives_get`): every part of it takes the bytes that the layout gives to
that part, whatever their padding holds and whatever follows. It stops short of the end only where it refuses the
signature of what a variant holds, and `reads_get` is about the values for which it refuses none.
-/
namespace Marshal.Dbus

open Cell Get

variable {c : Codec} {o : ByteOrder} {p : Int} {read : Ty → Except DecodeError Ty}

theorem reads_getScalar {s : Scalar} {bs : List UInt8} (hs : s.isWellFormed = true) (h : scalarBytes o s = .ok bs) :
    Reads (getScalar o s.basic) p bs s := by
  cases s with
  | int k n => exact (reads_int (pos_of_dvd_eight k.width_dvd_eight) h).map
  | boolean b => exact (reads_boolean (by decide) h).map
  | double bits =>
    cases h
    exact (reads_double o bits).map
  | text k s =>
    simp only [Scalar.isWellFormed, Bool.and_eq_true, Bool.not_eq_true', List.contains_eq_mem,
      decide_eq_false_iff_not] at hs
    cases k with
    | string => exact (reads_string (by decide) hs.1 h).map
    | objectPath => exact (reads_objectPath (by decide) hs.1 hs.2 h).map
    | signature =>
      rw [scalarBytes] at h
      cases hp : Signature.parseAll { format := some .dbus } (Text.ofString s) with
      | error e =>
        rw [hp] at h
        cases h
      | ok ts =>
        rw [hp] at h
        exact (reads_signature hp h).map

/-! ## Every value takes a byte -/

theorem length_cells_pos : ∀ {room p : Nat} {v : Value} {cs : List Cell}, v.isWellFormed = true →
    cells c room p v = .ok cs → 0 < cs.length
  | room + 1, p, v, cs, hv, h => by
    obtain ⟨a, body, -, hb, rfl⟩ := cells_eq_ok.1 h
    suffices hpos : 0 < body.length by
      rw [List.length_append]
      omega
    cases v with
    | scalar s =>
      obtain ⟨bs, hs, rfl⟩ := except_map_eq_ok.1 hb
      rw [length_given, length_scalarBytes hs]
      exact scalarSize_pos s
    | array t items =>
      obtain ⟨a, elements, length, -, -, hl, rfl⟩ := arrayCells_eq_ok.1 hb
      have hlen := Integer.length_of_encode? (lengthOf_eq_ok.1 hl).2
      rw [List.length_append, length_given, hlen]
      exact Nat.lt_add_right _ (by decide : 0 < lengthWidth)
    | struct members =>
      simp only [Value.isWellFormed, Bool.and_eq_true] at hv
      cases members with
      | nil => simp [Ty.isFormed, Value.tys] at hv
      | cons w members =>
        rw [contentCells, inTurn_cons_eq_ok] at hb
        obtain ⟨as, bs, h1, -, rfl⟩ := hb
        have := length_cells_pos (Value.areWellFormed_iff.1 hv.2 w (List.mem_cons_self ..)) h1
        rw [List.length_append]
        omega
    | entry k w =>
      simp only [Value.isWellFormed, Bool.and_eq_true] at hv
      rw [contentCells, follow_eq_ok] at hb
      obtain ⟨as, bs, h1, -, rfl⟩ := hb
      have := length_cells_pos (v := .scalar k) hv.1.2 h1
      rw [List.length_append]
      omega
    | variant w =>
      rw [contentCells, follow_eq_ok] at hb
      obtain ⟨as, bs, h1, -, rfl⟩ := hb
      obtain ⟨text, h2, rfl⟩ := except_map_eq_ok.1 h1
      rw [List.length_append, length_given, length_signatureBytes h2]
      omega
    | nothing t => cases hb
    | just v => cases hb

/-! ## Reading -/

variable {get : Get Value} {f : Nat → Value → Except Error (List Cell)}

/-- Elements are read up to the end of the last one. -/
theorem gives_getUntil {stop : Int} : ∀ {items : List Value} {n q : Nat} {cs : List Cell} {bs : List UInt8}
    (acc : List Value),
    (∀ v ∈ items, ∀ q cs bs, f q v = .ok cs → Matches cs bs → 0 < bs.length ∧ Gives read v.heldTypes get q bs v) →
      inTurn f q items = .ok cs → Matches cs bs → stop = q + bs.length → bs.length ≤ n →
        Gives read (Value.heldTypesOf items) (getUntil stop get n acc) q bs (acc.reverse ++ items)
  | [], n, q, cs, bs, acc, _, h, hm, hs, _ => by
    rw [inTurn_nil_eq_ok] at h
    subst h
    rw [matches_nil_iff] at hm
    subst hm
    rw [List.append_nil]
    cases n with
    | zero => exact (reads_pure _).gives
    | succ n =>
      rw [getUntil]
      refine gives_position ?_
      rw [if_neg (by simp only [List.length_nil] at hs; omega)]
      exact (reads_pure _).gives
  | v :: items, n, q, cs, bs, acc, hread, h, hm, hs, hn => by
    obtain ⟨as, ds, h1, h2, rfl⟩ := inTurn_cons_eq_ok.1 h
    obtain ⟨bs₁, bs₂, rfl, hm1, hm2⟩ := matches_append_iff.1 hm
    obtain ⟨hpos, hv⟩ := hread v (List.mem_cons_self ..) q as bs₁ h1 hm1
    rw [hm1.length_eq] at h2
    rw [List.length_append] at hs hn
    obtain ⟨m, rfl⟩ : ∃ m, n = m + 1 := ⟨n - 1, by omega⟩
    have hstop : stop = (q + bs₁.length : Nat) + bs₂.length := by omega
    have hcount : bs₂.length ≤ m := by omega
    have ih := gives_getUntil (v :: acc) (fun w hw => hread w (List.mem_cons_of_mem v hw)) h2 hm2 hstop hcount
    rw [getUntil]
    refine gives_position ?_
    rw [if_pos (by omega)]
    refine hv.bind ?_
    rw [List.reverse_cons, List.append_assoc, List.singleton_append, Nat.cast_add] at ih
    exact ih

theorem gives_getArray {t : Ty} {items : List Value} {q : Nat} {cs : List Cell} {bs : List UInt8}
    (hread : ∀ v ∈ items, ∀ q cs bs, f q v = .ok cs → Matches cs bs →
      0 < bs.length ∧ Gives read v.heldTypes get q bs v)
    (h : arrayCells c f t items q = .ok cs) (hm : Matches cs bs) :
    Gives read (Value.heldTypesOf items) (getArray c get t) q bs items := by
  obtain ⟨a, body, length, ha, hbody, hl, rfl⟩ := arrayCells_eq_ok.1 h
  obtain ⟨as, ds, rfl, hm1, hm2⟩ := matches_append_iff.1 hm
  obtain ⟨gap, es, rfl, hm2, hm3⟩ := matches_append_iff.1 hm2
  rw [matches_given_iff] at hm1
  subst hm1
  rw [matches_blank_iff] at hm2
  obtain ⟨hlimit, hl⟩ := lengthOf_eq_ok.1 hl
  have hwidth := Integer.length_of_encode? hl
  have hq : (q : Int) + as.length = (q + lengthWidth : Nat) := by rw [hwidth, Nat.cast_add]; rfl
  have hq' : ((q + lengthWidth : Nat) : Int) + gap.length =
      (q + lengthWidth + padTo (q + lengthWidth : Nat) a : Nat) := by
    rw [hm2, ← Nat.cast_add]
  rw [hm3.length_eq] at hlimit hl
  refine gives_ofExcept ha ((reads_int (by decide : 0 < lengthWidth) (intBytes_eq_ok.2 hl)).bind_gives ?_)
  rw [hq]
  simp only [Int.toNat_natCast]
  rw [if_neg (by omega)]
  refine (reads_pad hm2).bind_gives (gives_has le_rfl ?_)
  rw [hq', Bool.not_true, if_neg Bool.false_ne_true]
  refine gives_position ((gives_getUntil [] hread hbody hm3 rfl le_rfl).bind_nil (reads_position ?_))
  rw [if_neg (by omega)]
  exact reads_pure items

/-- Members are read one after the other. -/
theorem gives_getEach {get : Ty → Get Value} : ∀ {members : List Value} {q : Nat} {cs : List Cell} {bs : List UInt8},
    (∀ v ∈ members, ∀ q cs bs, f q v = .ok cs → Matches cs bs → Gives read v.heldTypes (get v.ty) q bs v) →
      inTurn f q members = .ok cs → Matches cs bs →
        Gives read (Value.heldTypesOf members) (getEach get (Value.tys members)) q bs members
  | [], q, cs, bs, _, h, hm => by
    rw [inTurn_nil_eq_ok] at h
    subst h
    rw [matches_nil_iff] at hm
    subst hm
    exact (reads_pure []).gives
  | v :: members, q, cs, bs, hread, h, hm => by
    obtain ⟨as, ds, h1, h2, rfl⟩ := inTurn_cons_eq_ok.1 h
    obtain ⟨bs₁, bs₂, rfl, hm1, hm2⟩ := matches_append_iff.1 hm
    rw [hm1.length_eq] at h2
    have ih := gives_getEach (fun w hw => hread w (List.mem_cons_of_mem v hw)) h2 hm2
    rw [Nat.cast_add] at ih
    exact (hread v (List.mem_cons_self ..) q as bs₁ h1 hm1).bind ih.map

theorem reads_getKey {room q : Nat} {k : Scalar} {cs : List Cell} {bs : List UInt8} (hk : k.isWellFormed = true)
    (h : cells c room q (.scalar k) = .ok cs) (hm : Matches cs bs) : Reads (getKey c room k.basic) q bs k := by
  cases room with
  | zero => cases h
  | succ room =>
    obtain ⟨a, body, ha, hb, rfl⟩ := cells_eq_ok.1 h
    obtain ⟨pad, bs, rfl, hm1, hm2⟩ := matches_append_iff.1 hm
    rw [matches_blank_iff] at hm1
    cases ha
    obtain ⟨bytes, hs, rfl⟩ := except_map_eq_ok.1 hb
    rw [matches_given_iff] at hm2
    subst hm2
    unfold getKey
    rw [if_neg (Nat.succ_ne_zero room)]
    exact (reads_pad hm1).bind (reads_getScalar hk hs)

/-- What a reader makes of the signature of a type, which it reads as any signature before it reads it as that of what a
variant holds. -/
def readSignature (c : Codec) (t : Ty) : Except DecodeError Ty :=
  match Signature.parseAll { format := none } t.signature with
  | .error e => .error (.invalidSignature e)
  | .ok _ => (Signature.parse c.reading t.signature).mapError (.variantSignature t.signatureString)

theorem readSignature_eq_ok {t : Ty} (hf : t.isFormed = true) (he : t.isEntry = false) (hm : t.mentionsMaybe = false)
    (hn : (t.nesting : Int) ≤ c.maxDepth) (hl : t.signature.length ≤ Limits.signatureLength) :
    readSignature c t = .ok t := by
  have hnest : (t.nesting : Int) ≤ Limits.depth := by exact_mod_cast Ty.nesting_le_depth hf hm
  have hall : Signature.parseAll { format := none } t.signature = .ok [t] := by
    refine Signature.parseAll_eq_ok_iff.2 ⟨?_, hl, List.forall_mem_singleton.2 ?_⟩
    · rw [Ty.signatureOf_cons, Ty.signatureOf_nil, List.append_nil]
    · exact Signature.accepts_of_isFormed hf he hnest nofun
  have hone : Signature.parse c.reading t.signature = .ok t :=
    Signature.parse_eq_ok_iff.2 ⟨rfl, hl, Signature.accepts_of_isFormed hf he hn fun _ => hm⟩
  rw [readSignature, hall, hone]
  rfl

/-- A variant is read as what it holds, unless its signature is refused. -/
theorem gives_variant {w : Value} {get : Ty → Get Value} {as bs : List UInt8} (hf : w.ty.isFormed = true)
    (he : w.ty.isEntry = false) (hs : signatureBytes true w.ty.signature = .ok as)
    (h : Gives (readSignature c) w.heldTypes (get w.ty) (p + as.length) bs w) :
    Gives (readSignature c) (Value.variant w).heldTypes (do
      let s ← Get.signature true none
      match Signature.parse c.reading (Text.ofString s) with
      | .ok t => return Value.variant (← get t)
      | .error e => Get.fail (.variantSignature s e)) p (as ++ bs) (.variant w) := by
  have hmem : w.ty ∈ (Value.variant w).heldTypes := List.mem_cons_self
  have h0 : 0 ∉ Text.ofString w.ty.signatureString := by
    rw [Ty.ofString_signatureString]
    exact fun h0 => absurd (Ty.mem_signature h0).1 (lt_irrefl 0)
  have hwithin : Get.signature true none = signatureWithin 1 none := funext fun s => signature_apply true none s
  rw [← Ty.ofString_signatureString] at hs
  rw [hwithin, signatureWithin, bind_assoc]
  refine (reads_string Nat.one_pos h0 (signatureBytes_eq_ok.1 hs).2).bind_gives ?_
  rw [Ty.ofString_signatureString]
  have hread := readSignature.eq_1 c w.ty
  cases hall : Signature.parseAll { format := none } w.ty.signature with
  | error e =>
    rw [hall] at hread
    exact gives_fail_bind hmem hread
  | ok ts =>
    rw [hall] at hread
    simp only [pure_bind]
    rw [Ty.ofString_signatureString]
    cases hone : Signature.parse c.reading w.ty.signature with
    | error e =>
      rw [hone] at hread
      exact gives_fail hmem hread
    | ok t =>
      obtain rfl := Signature.eq_of_parse hf he hone
      rw [hone] at hread
      exact h.map.cons hread

/-- **The reader follows the layout**, as far as it accepts the signatures of what variants hold. -/
theorem gives_get : ∀ (room : Nat) {v : Value} {q : Nat} {cs : List Cell} {bs : List UInt8},
    v.isWellFormed = true → cells c room q v = .ok cs → Matches cs bs →
      Gives (readSignature c) v.heldTypes (Dbus.get c room v.ty) q bs v
  | room + 1, v, q, cs, bs, hv, h, hm => by
    obtain ⟨a, body, ha, hb, rfl⟩ := cells_eq_ok.1 h
    obtain ⟨pad, bs, rfl, hm1, hm2⟩ := matches_append_iff.1 hm
    rw [matches_blank_iff] at hm1
    refine gives_ofExcept ha ((reads_pad hm1).bind_gives ?_)
    have hq : (q : Int) + pad.length = (q + padTo q a : Nat) := by rw [hm1, Nat.cast_add]
    rw [hq]
    -- every child is read by the induction hypothesis
    have ih : ∀ {w : Value}, w.isWellFormed = true → ∀ q cs bs, cells c room q w = .ok cs → Matches cs bs →
        0 < bs.length ∧ Gives (readSignature c) w.heldTypes (Dbus.get c room w.ty) q bs w := by
      intro w hw q cs bs h hm
      refine ⟨?_, gives_get room hw h hm⟩
      rw [← hm.length_eq]
      exact length_cells_pos hw h
    cases v with
    | scalar s =>
      obtain ⟨bytes, hs, rfl⟩ := except_map_eq_ok.1 hb
      rw [matches_given_iff] at hm2
      subst hm2
      exact (reads_getScalar hv hs).map.gives
    | array t items =>
      simp only [Value.isWellFormed, Bool.and_eq_true, Value.areOf_iff] at hv
      refine (gives_getArray (f := cells c room) (fun w hw => ?_) hb hm2).map
      obtain ⟨hw1, rfl⟩ := hv.2 w hw
      exact ih hw1
    | struct members =>
      simp only [Value.isWellFormed, Bool.and_eq_true, Value.areWellFormed_iff] at hv
      refine (gives_getEach (f := cells c room) (fun w hw q cs bs h hm => ?_) hb hm2).map
      exact (ih (hv.2 w hw) q cs bs h hm).2
    | entry k w =>
      simp only [Value.isWellFormed, Bool.and_eq_true] at hv
      rw [contentCells, follow_eq_ok] at hb
      obtain ⟨as, ds, h1, h2, rfl⟩ := hb
      obtain ⟨bs₁, bs₂, rfl, hk, hw⟩ := matches_append_iff.1 hm2
      rw [hk.length_eq] at h2
      refine (reads_getKey hv.1.2 h1 hk).bind_gives ?_
      have := (ih hv.2 _ _ _ h2 hw).2
      rw [Nat.cast_add] at this
      exact this.map
    | variant w =>
      simp only [Value.isWellFormed, Bool.and_eq_true, Bool.not_eq_true'] at hv
      rw [contentCells, follow_eq_ok] at hb
      obtain ⟨as, ds, h1, h2, rfl⟩ := hb
      obtain ⟨bs₁, bs₂, rfl, hs, hw⟩ := matches_append_iff.1 hm2
      obtain ⟨bytes, h3, rfl⟩ := except_map_eq_ok.1 h1
      rw [matches_given_iff] at hs
      subst hs
      rw [length_given] at h2
      have := (ih hv.2 _ _ _ h2 hw).2
      rw [Nat.cast_add] at this
      exact gives_variant (Value.isFormed_ty hv.2) hv.1 h3 this
    | nothing t => cases hb
    | just w => cases hb

/-- The signatures that are written are no longer than the limit. -/
theorem length_signature_le : ∀ {room p : Nat} {v : Value} {cs : List Cell}, cells c room p v = .ok cs →
    ∀ t ∈ v.heldTypes, t.signature.length ≤ Limits.signatureLength
  | room + 1, p, v, cs, h => by
    obtain ⟨a, body, -, hb, rfl⟩ := cells_eq_ok.1 h
    have hitems {vs : List Value} {q : Nat} {cs : List Cell} (h : inTurn (cells c room) q vs = .ok cs) :
        ∀ t ∈ Value.heldTypesOf vs, t.signature.length ≤ Limits.signatureLength := by
      intro t ht
      obtain ⟨w, hw, ht⟩ := Value.mem_heldTypesOf_iff.1 ht
      obtain ⟨q, ds, hw⟩ := exists_of_mem_inTurn h hw
      exact length_signature_le hw t ht
    cases v with
    | scalar s => exact List.forall_mem_nil _
    | array t items =>
      obtain ⟨_, elements, _, -, helements, -⟩ := arrayCells_eq_ok.1 hb
      exact hitems helements
    | struct members => exact hitems hb
    | entry k w =>
      rw [contentCells, follow_eq_ok] at hb
      obtain ⟨as, bs, -, h2, -⟩ := hb
      exact length_signature_le (v := w) h2
    | variant w =>
      rw [contentCells, follow_eq_ok] at hb
      obtain ⟨as, bs, h1, h2, -⟩ := hb
      obtain ⟨text, h3, -⟩ := except_map_eq_ok.1 h1
      rw [← Ty.ofString_signatureString] at h3
      have hlen := (signatureBytes_eq_ok.1 h3).1
      rw [Ty.ofString_signatureString] at hlen
      exact List.forall_mem_cons.2 ⟨hlen, length_signature_le h2⟩
    | nothing t => cases hb
    | just w => cases hb

/-- What is written is read back if the types of what its variants hold are types of the format, and no more deeply
nested than the reader allows. -/
theorem reads_get (room : Nat) {v : Value} {q : Nat} {cs : List Cell} {bs : List UInt8} (hv : v.isWellFormed = true)
    (ht : ∀ t ∈ v.heldTypes, t.mentionsMaybe = false ∧ (t.nesting : Int) ≤ c.maxDepth)
    (h : cells c room q v = .ok cs) (hm : Matches cs bs) : Reads (Dbus.get c room v.ty) q bs v := by
  refine (gives_get room hv h hm).reads fun t hmem => ?_
  obtain ⟨hmaybe, hn⟩ := ht t hmem
  obtain ⟨hf, he⟩ := Value.formed_of_mem_heldTypes v hv t hmem
  exact readSignature_eq_ok hf he hmaybe hn (length_signature_le h t hmem)

/-- **What is written for a value at any position and depth, into any sink, is read back there**, whatever follows, and
the reader stops where the writer did. The types that its variants hold have to be types of the format, and no more
deeply nested than the reader allows. -/
theorem get_of_put {c : Codec} {d : Int} {v : Value} {s s' : Sink} (hv : v.isWellFormed = true)
    (hm : ∀ t ∈ v.heldTypes, t.mentionsMaybe = false) (hn : ∀ t ∈ v.heldTypes, (t.nesting : Int) ≤ c.maxDepth)
    (h : Dbus.put c (c.roomAt d) v s = .ok () s') :
    ∃ bs, s'.bytes.toList = s.bytes.toList ++ bs ∧ ∀ rest,
      Dbus.get c (c.roomAt d) v.ty ⟨s.bytes.size, bs ++ rest, []⟩ = .ok v ⟨s.bytes.size + bs.length, rest, []⟩ := by
  obtain ⟨cs, h1, h2, -⟩ := (lays_put c (c.roomAt d) v).ok h
  obtain ⟨cs, h1, h3⟩ := except_map_eq_ok.1 h1
  cases h3
  exact ⟨Cell.render cs, h2, reads_get _ hv (fun t ht => ⟨hm t ht, hn t ht⟩) h1 (Cell.matches_render cs)⟩

theorem get_of_put_unaligned :
    let c : Codec := { format := .dbus, order := .big }
    let v : Value := .struct [.scalar (.int .byte 7),
      .variant (.array .variant [.variant (.scalar (.int .int16 (-2)))])]
    let s : Sink := { bytes := #[1, 2, 3] }
    v.isWellFormed = true ∧ (∀ t ∈ v.heldTypes, t.mentionsMaybe = false) ∧
      (∀ t ∈ v.heldTypes, (t.nesting : Int) ≤ c.maxDepth) ∧ ∃ s', Dbus.put c (c.roomAt 60) v s = .ok () s' ∧
        ∃ bs, s'.bytes.toList = s.bytes.toList ++ bs ∧ ∀ rest,
          Dbus.get c (c.roomAt 60) v.ty ⟨s.bytes.size, bs ++ rest, []⟩ =
            .ok v ⟨s.bytes.size + bs.length, rest, []⟩ := by
  intro c v s
  have hv : v.isWellFormed = true := by decide
  have hm : ∀ t ∈ v.heldTypes, t.mentionsMaybe = false := by decide
  have hn : ∀ t ∈ v.heldTypes, (t.nesting : Int) ≤ c.maxDepth := by decide
  obtain ⟨s', h⟩ : ∃ s', Dbus.put c (c.roomAt 60) v s = .ok () s' := by
    simp only [c, v, s]
    exact ⟨_, rfl⟩
  exact ⟨hv, hm, hn, s', h, get_of_put hv hm hn h⟩

end Marshal.Dbus
