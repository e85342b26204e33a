import Marshal.Proofs.Framing.Children
import Marshal.Proofs.Gvariant.Reading
import Marshal.Proofs.Gvariant.Refusal
/-!
# Which accepted GVariant bytes are those that the writer writes

A reader takes the width of a container's offsets from the size of the container, so it accepts a few sizes that a
writer never gives to the same children, and no bytes at all for a struct of empty members. Bytes are `Snug` when no
container in them has such a size. These, and no others, are written again but for their padding.
-/
namespace Marshal.Gvariant

open Cell Get Framing

/-- Whether every container in the bytes of a type, at every level, is as large as a writer makes it. -/
inductive Snug (c : Codec) : Ty → List UInt8 → Prop
  | basic {b : Basic} {bs : List UInt8} : Snug c (.basic b) bs
  | array {t : Ty} {bs : List UInt8} {ws : List Window} (windows : elementWindows bs.toArray (Layout.ofTy t) = .ok ws)
      (size : IsSnug bs.length (elementCount (Layout.ofTy t) ws.length)) (elements : ∀ w ∈ ws, Snug c t (w.slice bs)) :
      Snug c (.array t) bs
  | struct {ts : List Ty} {bs : List UInt8} {ws : List Window}
      (windows : windows bs.toArray (ts.map Layout.ofTy) = .ok ws)
      (size : IsSnug bs.length (offsetCount (ts.map Layout.ofTy)))
      (members : ∀ m ∈ ts.zip ws, Snug c m.1 (m.2.slice bs)) : Snug c (.struct ts) bs
  | entry {k : Basic} {t : Ty} {bs : List UInt8} (members : Snug c (.struct [.basic k, t]) bs) : Snug c (.entry k t) bs
  | variant {t : Ty} {bs value signature : List UInt8} (split : splitVariant bs = some (value, signature))
      (type : signatureType c signature = .ok t) (content : Snug c t value) : Snug c .variant bs
  | nothing {t : Ty} : Snug c (.maybe t) []
  | just {t : Ty} {value : List UInt8} (content : Snug c t value) : Snug c (.maybe t) (value ++ justEnd t)

variable {c : Codec} {p : Int} {bs : List UInt8} {room : Nat} {t : Ty} {v : Value}

/-- What is known of a value that was read from bytes. -/
structure ReadFrom (c : Codec) (room : Nat) (t : Ty) (bs : List UInt8) (v : Value) : Prop where
  ty : v.ty = t
  isTyped : v.isTyped = true
  error (e : Error) : cells c room v = .error e → e = .offsetTooLarge
  snug : Snug c t bs ↔ ∃ cs, cells c room v = .ok cs ∧ Matches cs bs

theorem snug_array_iff {ws : List Window} (hws : elementWindows bs.toArray (Layout.ofTy t) = .ok ws) :
    Snug c (.array t) bs ↔
      IsSnug bs.length (elementCount (Layout.ofTy t) ws.length) ∧ ∀ w ∈ ws, Snug c t (w.slice bs) := by
  constructor
  · intro h
    cases h with
    | array hws' hsize helements =>
      obtain rfl := Except.ok.inj (hws.symm.trans hws')
      exact ⟨hsize, helements⟩
  · exact fun ⟨hsize, helements⟩ => .array hws hsize helements

theorem snug_struct_iff {members : List Value} {ws : List Window} (hlen : members.length = ws.length)
    (hws : windows bs.toArray ((Value.tys members).map Layout.ofTy) = .ok ws) :
    Snug c (.struct (Value.tys members)) bs ↔ IsSnug bs.length (offsetCount ((Value.tys members).map Layout.ofTy)) ∧
      List.Forall₂ (fun v w => Snug c v.ty (w.slice bs)) members ws := by
  have hzip : List.Forall₂ (fun v w => Snug c v.ty (w.slice bs)) members ws ↔
      ∀ m ∈ (Value.tys members).zip ws, Snug c m.1 (m.2.slice bs) := by
    have h : List.Forall₂ (fun t w => Snug c t (Window.slice w bs)) (Value.tys members) ws ↔ _ := List.forall₂_iff_zip
    rw [Value.tys_eq_map, List.forall₂_map_left_iff, List.length_map, and_iff_right hlen, ← Value.tys_eq_map] at h
    rw [h]
    exact ⟨fun h m hm => h hm, fun h t w hm => h (t, w) hm⟩
  rw [hzip]
  constructor
  · intro h
    cases h with
    | struct hws' hsize hmembers =>
      obtain rfl := Except.ok.inj (hws.symm.trans hws')
      exact ⟨hsize, hmembers⟩
  · exact fun ⟨hsize, hmembers⟩ => .struct hws hsize hmembers

/-- What is known of children from their bytes. -/
def ReadsFrom (c : Codec) (room : Nat) : Prop :=
  ∀ (t : Ty) (p : Int) (bs : List UInt8) (v : Value), (t.gvariantAlignment : Int) ∣ p →
    inside p bs (get c room t) = .ok v → ReadFrom c room t bs v

/-- Members that were read, as members of the type that has them. -/
theorem readFrom_members (hget : ReadsFrom c room) {ts : List Ty} {members : List Value}
    (hp : (Ty.gvariantAlignments ts : Int) ∣ p) (h : run (getMembers (get c room) ts) ⟨p, bs, []⟩ = .ok members) :
    Value.tys members = ts ∧ (∀ v ∈ members, v.isTyped = true) ∧
      (∀ e, memberCells (cells c room) members = .error e → e = .offsetTooLarge) ∧
      (Snug c (.struct ts) bs ↔ ∃ cs, memberCells (cells c room) members = .ok cs ∧ Matches cs bs) := by
  obtain ⟨ws, hws, hf⟩ := run_getMembers_eq_ok.1 h
  have hstart := dvd_start_of_windows hws
  have hzip := ((List.forall₂_and_left _ _).2 ⟨dvd_add_start_of_windows hp hws, hf⟩).imp fun m v h =>
    hget _ _ _ _ h.1 h.2
  obtain ⟨rfl, hread⟩ := (forall₂_zip_iff (R := fun w t v => ReadFrom c room t (w.slice bs) v) hstart.length_eq).1
    (hzip.imp fun m v h => ⟨h, h.ty⟩)
  have hmem : ∀ v ∈ members, v.isTyped = true ∧ ∀ e, cells c room v = .error e → e = .offsetTooLarge :=
    ((List.forall₂_and_left _ _).1 (hread.imp fun v w h => ⟨⟨h.isTyped, h.error⟩, h⟩)).1
  refine ⟨rfl, fun v hv => (hmem v hv).1, fun e he => ?_, ?_⟩
  · rcases exists_of_memberCells_error he with ⟨v, hv, he⟩ | ⟨rfl, -⟩
    · exact (hmem v hv).2 e he
    · rfl
  · have hne : members ≠ [] := by
      rintro rfl
      cases hws
    rw [snug_struct_iff hread.length_eq hws, exists_members_iff hne, forall₂_congr (hread.imp fun v w h => h.snug)]
    constructor
    · rintro ⟨hsize, hmembers⟩
      exact ⟨ws, hws, hmembers, hsize⟩
    · rintro ⟨ws', hws', hmembers, hsize⟩
      obtain rfl := Except.ok.inj (hws.symm.trans hws')
      exact ⟨hsize, hmembers⟩

/-- Elements that were read, as elements of their array. -/
theorem readFrom_array (hget : ReadsFrom c room) {items : List Value} (hp : (t.gvariantAlignment : Int) ∣ p)
    (h : run (getElements (Layout.ofTy t) (get c room t)) ⟨p, bs, []⟩ = .ok items) :
    ReadFrom c (room + 1) (.array t) bs (.array t items) := by
  obtain ⟨ws, hws, hf⟩ := run_getElements_eq_ok.1 h
  have hstart := dvd_start_of_elementWindows hws
  have hread : List.Forall₂ (fun v w => ReadFrom c room t (w.slice bs) v) items ws :=
    (((List.forall₂_and_left _ _).2 ⟨hstart, hf⟩).imp fun w v h =>
      hget _ _ _ _ (Int.dvd_add hp (Int.natCast_dvd_natCast.2 h.1)) h.2).flip
  have hmem : ∀ v ∈ items, v.ty = t ∧ v.isTyped = true ∧ ∀ e, cells c room v = .error e → e = .offsetTooLarge :=
    ((List.forall₂_and_left _ _).1 (hread.imp fun v w h => ⟨⟨h.ty, h.isTyped, h.error⟩, h⟩)).1
  refine ⟨rfl, ?_, fun e he => ?_, ?_⟩
  · rw [Value.isTyped, Value.haveType_iff]
    exact fun v hv => ⟨(hmem v hv).2.1, (hmem v hv).1⟩
  · rcases exists_of_elementCells_error he with ⟨v, hv, he⟩ | ⟨rfl, -⟩
    · exact (hmem v hv).2.2 e he
    · rfl
  · have hz : t.fixedSize = some 0 → items = [] := by
      intro h0
      have hd : ∀ n ∈ (Layout.ofTy t).fixedSize, (Layout.ofTy t).alignment ∣ n := fun n hn =>
        Ty.gvariantAlignment_dvd_fixedSize hn
      have hnil := (tiled_of_elementWindows t.gvariantAlignment_pos hd hws).2.2 h0
      rw [hnil] at hread
      exact List.forall₂_nil_right_iff.1 hread
    have hall : (∀ w ∈ ws, Snug c t (w.slice bs)) ↔
        List.Forall₂ (fun v w => ∃ cs, cells c room v = .ok cs ∧ Matches cs (w.slice bs)) items ws := by
      constructor
      · intro h
        exact (((List.forall₂_and_left _ _).2 ⟨h, hread.flip⟩).imp fun w v h => h.2.snug.1 h.1).flip
      · intro h
        have hboth := List.Forall₂.mp (fun v (w : Window) (h1 : ReadFrom c room t (w.slice bs) v) h2 =>
          And.intro (h1.snug.2 h2) h2) hread h
        exact ((List.forall₂_and_left _ _).1 hboth.flip).1
    rw [snug_array_iff hws, cells, exists_elements_iff (fun v hv => (hmem v hv).1) hz, hall]
    constructor
    · rintro ⟨hsize, helements⟩
      exact ⟨ws, hws, helements, hsize⟩
    · rintro ⟨ws', hws', helements, hsize⟩
      obtain rfl := Except.ok.inj (hws.symm.trans hws')
      exact ⟨hsize, helements⟩

/-- What follows a value has to be what is written behind it. -/
theorem exists_map_append_iff {r : Except Error (List Cell)} {value rest : List UInt8} :
    (∃ cs, r.map (· ++ given rest) = .ok cs ∧ Matches cs (value ++ rest)) ↔ ∃ cs, r = .ok cs ∧ Matches cs value := by
  constructor
  · rintro ⟨_, h, hm⟩
    obtain ⟨cs, hcs, rfl⟩ := except_map_eq_ok.1 h
    obtain ⟨as, bs, heq, hvalue, hrest⟩ := matches_append_iff.1 hm
    rw [matches_given_iff] at hrest
    subst hrest
    rw [List.append_cancel_right heq]
    exact ⟨cs, hcs, hvalue⟩
  · rintro ⟨cs, hcs, hm⟩
    exact ⟨cs ++ given rest, except_map_eq_ok.2 ⟨cs, hcs, rfl⟩, hm.append (matches_given_iff.2 rfl)⟩

theorem readFrom_variant (hget : ReadsFrom c room) (hp : (Ty.variant.gvariantAlignment : Int) ∣ p)
    (h : inside p bs (get c (room + 1) .variant) = .ok v) : ReadFrom c (room + 1) .variant bs v := by
  obtain ⟨value, signature, t, w, hsplit, htype, hinside, rfl⟩ := (inside_variant_eq_ok hp).1 h
  have hw : (t.gvariantAlignment : Int) ∣ p :=
    Int.dvd_trans (Int.natCast_dvd_natCast.2 t.gvariantAlignment_dvd_eight) hp
  have hread := hget t p value w hw hinside
  obtain ⟨rfl, -⟩ := splitVariant_eq_some_iff.1 hsplit
  obtain ⟨rfl, -⟩ := signatureType_eq_ok.1 htype
  obtain rfl := hread.ty
  refine ⟨rfl, hread.isTyped, fun e he => hread.error e (except_map_eq_error.1 he), ?_⟩
  rw [cells, exists_map_append_iff, ← hread.snug]
  constructor
  · intro h
    cases h with
    | variant hsplit' htype' hcontent =>
      obtain ⟨rfl, rfl⟩ := Prod.mk.inj (Option.some.inj (hsplit.symm.trans hsplit'))
      rwa [Except.ok.inj (htype.symm.trans htype')]
  · exact .variant hsplit htype

theorem readFrom_maybe (hget : ReadsFrom c room) (hp : ((Ty.maybe t).gvariantAlignment : Int) ∣ p)
    (h : inside p bs (get c (room + 1) (.maybe t)) = .ok v) : ReadFrom c (room + 1) (.maybe t) bs v := by
  rcases (inside_maybe_eq_ok hp).1 h with ⟨rfl, rfl⟩ | ⟨hne, value, w, rfl, hinside, rfl⟩
  · refine ⟨rfl, rfl, fun e he => ?_, ⟨fun _ => ⟨[], rfl, matches_nil_iff.2 rfl⟩, fun _ => .nothing⟩⟩
    cases he
  · rw [Ty.gvariantAlignment] at hp
    have hread := hget t p value w hp hinside
    obtain rfl := hread.ty
    refine ⟨rfl, hread.isTyped, fun e he => hread.error e (except_map_eq_error.1 he), ?_⟩
    rw [cells, exists_map_append_iff, ← hread.snug]
    refine ⟨fun h => ?_, .just⟩
    generalize hbs : value ++ justEnd w.ty = bs at h hne
    cases h with
    | nothing => exact absurd rfl hne
    | just h => rwa [List.append_cancel_right hbs]

/-- **What is known of a value that was read.** -/
theorem readFrom (c : Codec) : ∀ room : Nat, ReadsFrom c room
  | 0 => fun _ _ _ _ _ h => absurd h run_fail
  | room + 1 => by
    intro t p bs v hp h
    have hget := readFrom c room
    cases t with
    | basic b =>
      obtain ⟨s, rfl, rfl, hs⟩ := inside_basic hp h
      have hcells : cells c (room + 1) (.scalar s) = .ok (given bs) := except_map_eq_ok.2 ⟨bs, hs, rfl⟩
      refine ⟨rfl, rfl, fun e he => ?_, ⟨fun _ => ⟨_, hcells, matches_given_iff.2 rfl⟩, fun _ => .basic⟩⟩
      rw [hcells] at he
      cases he
    | array t =>
      obtain ⟨items, hitems, rfl⟩ := (inside_array_eq_ok hp).1 h
      rw [Ty.gvariantAlignment] at hp
      exact readFrom_array hget hp hitems
    | struct ts =>
      obtain ⟨members, hmembers, rfl⟩ := (inside_struct_eq_ok hp).1 h
      rw [Ty.gvariantAlignment] at hp
      obtain ⟨rfl, htyped, herror, hsnug⟩ := readFrom_members hget hp hmembers
      refine ⟨rfl, ?_, herror, hsnug⟩
      rwa [Value.isTyped, Value.areTyped_iff]
    | entry k t =>
      obtain ⟨members, hmembers, rfl⟩ := (inside_entry_eq_ok hp).1 h
      rw [Ty.gvariantAlignment_entry, Ty.gvariantAlignment] at hp
      obtain ⟨htys, htyped, herror, hsnug⟩ := readFrom_members hget hp hmembers
      obtain ⟨s, w, rfl, rfl, rfl⟩ := eq_of_tys_entry htys
      have hsnug' : Snug c (.entry s.basic w.ty) bs ↔ Snug c (.struct [.basic s.basic, w.ty]) bs := by
        refine ⟨fun h => ?_, .entry⟩
        cases h with
        | entry h => exact h
      rw [← hsnug'] at hsnug
      exact ⟨rfl, htyped w (by simp), herror, hsnug⟩
    | variant => exact readFrom_variant hget hp h
    | maybe t => exact readFrom_maybe hget hp h

/-- **What is accepted is encoded again to the same bytes, but for padding, exactly when it is snug.** A value that was
read is always encoded, unless it takes an offset that does not fit in eight bytes. -/
theorem normalizes_iff_snug {c : Codec} (hc : c.format = .gvariant) {data : List UInt8} {t : Ty} {v : Value}
    (h : c.decode none data t = .ok v) :
    (∃ cs b, cells c c.room v = .ok cs ∧ c.encode none v = .ok b ∧ (Normalizes cs data b.toList ↔ Snug c t data)) ∨
      c.encode none v = .error .offsetTooLarge ∧ ¬ Snug c t data := by
  rw [decode_eq hc] at h
  have hread := readFrom c c.room t 0 data v (Int.dvd_zero _) h
  rw [encode_eq hc hread.isTyped, hread.snug]
  cases hcells : cells c c.room v with
  | error e =>
    obtain rfl := hread.error e hcells
    exact .inr ⟨rfl, nofun⟩
  | ok cs =>
    refine .inl ⟨cs, _, rfl, rfl, fun h => ⟨cs, rfl, ?_⟩, fun ⟨cs', hcs, hm⟩ => ?_⟩
    · rw [List.toList_toArray] at h
      exact h.matches
    · obtain rfl := Except.ok.inj hcs
      exact hm.normalizes

theorem normalizes_iff_snug_dirty :
    let c : Codec := { format := .gvariant, order := .little }
    let data : List UInt8 := [0x61, 0, 0xAA, 0xBB, 1, 0, 0, 0, 2]
    let t : Ty := .struct [.basic (.text .string), .basic (.int .uint32)]
    ∃ v, c.decode none data t = .ok v ∧
      ((∃ cs b, cells c c.room v = .ok cs ∧ c.encode none v = .ok b ∧ (Normalizes cs data b.toList ↔ Snug c t data)) ∨
        c.encode none v = .error .offsetTooLarge ∧ ¬ Snug c t data) := by
  intro c data t
  obtain ⟨v, h⟩ : ∃ v, c.decode none data t = .ok v := by
    simp only [c, data, t]
    exact ⟨_, rfl⟩
  exact ⟨v, h, normalizes_iff_snug rfl h⟩

/-- A struct that needs an offset is accepted without any bytes, and then has two encodings of different sizes. -/
theorem decode_empty_and_padded :
    let c : Codec := { format := .gvariant, order := .little }
    let strings : Ty := .array (.basic (.text .string))
    let v : Value := .struct [.array (.basic (.text .string)) [], .array (.basic (.text .string)) []]
    c.decode none [] (.struct [strings, strings]) = .ok v ∧ c.decode none [0] (.struct [strings, strings]) = .ok v ∧
      c.encode none v = .ok #[0] := ⟨rfl, rfl, rfl⟩

end Marshal.Gvariant
