import Mathlib.Data.List.TakeWhile
import Marshal.Codec
import Marshal.Proofs.Framing.Windows
import Marshal.Proofs.Gvariant.Layout
/-!
# What a GVariant reader accepts

Every reader takes the whole of its window, so all that can be said of one is which value it makes of which bytes. There
is one lemma for each kind of type, and each is an equivalence: it leads from a layout to its reader and back. Windows
start where their children are aligned, so a reader never finds padding in front of its value.
-/
namespace Marshal

/-! ## Readers of a whole window -/

namespace Get

variable {α β : Type} {get : Get α} {p : Int} {bs : List UInt8}

theorem run_readAll_bind {next : List UInt8 → Get α} :
    run (readAll >>= next) ⟨p, bs, []⟩ = run (next bs) ⟨p + bs.length, [], []⟩ := rfl

theorem run_position_bind {next : Int → Get α} : run (position >>= next) ⟨p, bs, []⟩ = run (next p) ⟨p, bs, []⟩ := rfl

theorem run_ofExcept {r : Except Error α} : run (ofExcept r) ⟨p, [], []⟩ = r := by
  cases r <;> rfl

theorem run_ofExcept_bind {r : Except Error α} {next : α → Get β} {s : Source} :
    run (ofExcept r >>= next) s = r >>= fun a => run (next a) s := by
  cases r <;> rfl

theorem run_bind_pure {f : α → β} {s : Source} : run (get >>= fun a => pure (f a)) s = (run get s).map f := by
  simp only [run, bind, EStateM.bind, pure, EStateM.pure]
  cases get s with
  | error e s' => rfl
  | ok a s' =>
    simp only
    cases finish s' <;> rfl

theorem run_bind_pure_eq_ok {f : α → β} {s : Source} {b : β} :
    run (get >>= fun a => pure (f a)) s = .ok b ↔ ∃ a, run get s = .ok a ∧ b = f a := by
  rw [run_bind_pure, except_map_eq_ok]
  simp only [eq_comm]

theorem run_fail {e : DecodeError} {s : Source} {a : α} : run (fail e) s ≠ .ok a := nofun

/-- There is no padding where a value is aligned. -/
theorem run_pad_bind {a : Nat} {next : Get α} (h : (a : Int) ∣ p) :
    run (do pad a; next) ⟨p, bs, []⟩ = run next ⟨p, bs, []⟩ := by
  have hpad : pad a ⟨p, bs, []⟩ = .ok () ⟨p, bs, []⟩ := pad_of_dvd h
  simp only [run, bind, EStateM.bind, hpad]

end Get

namespace Gvariant

open Cell Get Framing

variable {c : Codec} {p : Int} {bs : List UInt8} {room : Nat}

theorem decode_eq (hc : c.format = .gvariant) (t : Ty) : c.decode none bs t = inside 0 bs (get c c.room t) := by
  have hget : c.get t = Gvariant.get c c.room t := by rw [Codec.get, hc]
  rw [← hget]
  rfl

theorem inWindow_toArray {w : Window} {get : Get Value} :
    inWindow p bs.toArray w get = inside (p + w.start) (w.slice bs) get := by
  rw [inWindow, Window.of_toArray]

/-! ## Containers -/

/-- Windows start where their children are aligned. -/
theorem dvd_start_of_windows {ts : List Ty} {ws : List Window} (h : windows bs.toArray (ts.map Layout.ofTy) = .ok ws) :
    List.Forall₂ (fun t w => t.gvariantAlignment ∣ w.start) ts ws := by
  have hne : ts.map Layout.ofTy ≠ [] := by
    intro hnil
    rw [hnil] at h
    cases h
  have htiled := ((windows_eq_ok hne Ty.alignment_pos_of_mem).1 h).1
  exact List.forall₂_map_left_iff.1 (htiled.dvd_start Ty.alignment_pos_of_mem)

/-- So members are aligned where they are, if their container is. -/
theorem dvd_add_start_of_windows {ts : List Ty} {ws : List Window} (hp : (Ty.gvariantAlignments ts : Int) ∣ p)
    (h : windows bs.toArray (ts.map Layout.ofTy) = .ok ws) :
    ∀ m ∈ ws.zip ts, (m.2.gvariantAlignment : Int) ∣ p + m.1.start := by
  rintro ⟨w, t⟩ hm
  have ht := Ty.dvd_gvariantAlignments (List.of_mem_zip hm).2
  have hw := List.forall₂_zip (dvd_start_of_windows h).flip hm
  exact Int.dvd_add (Int.dvd_trans (Int.natCast_dvd_natCast.2 ht) hp) (Int.natCast_dvd_natCast.2 hw)

theorem dvd_start_of_elementWindows {t : Ty} {ws : List Window}
    (h : elementWindows bs.toArray (Layout.ofTy t) = .ok ws) :
    ∀ w ∈ ws, t.gvariantAlignment ∣ w.start := by
  have hl : 0 < (Layout.ofTy t).alignment := t.gvariantAlignment_pos
  have htiled := (tiled_of_elementWindows hl (fun n hn => Ty.gvariantAlignment_dvd_fixedSize hn) h).1
  have hstart := htiled.dvd_start fun l hmem => List.eq_of_mem_replicate hmem ▸ hl
  have hall := (List.forall₂_and_left _ _).2 ⟨fun l hmem => List.eq_of_mem_replicate hmem, hstart⟩
  refine ((List.forall₂_and_left _ _).1 (hall.flip.imp fun w l h => ⟨?_, h⟩)).1
  obtain ⟨rfl, hw⟩ := h
  exact hw

/-- The elements of an array are located and read one by one. -/
theorem run_getElements_bind {l : Layout} {get : Get Value} :
    run (getElements l get) ⟨p, bs, []⟩ = frame bs.toArray l.fixedSize >>= fun f =>
      (List.range f.count).mapM fun i => elementWindow bs.toArray f l i >>= fun w => inWindow p bs.toArray w get := by
  unfold getElements
  rw [run_position_bind, run_readAll_bind, run_ofExcept_bind]
  simp only [run_ofExcept]

/-- The members of a struct or dict entry are located before one is read. -/
theorem run_getMembers_bind {get : Ty → Get Value} {ts : List Ty} :
    run (getMembers get ts) ⟨p, bs, []⟩ = windows bs.toArray (ts.map Layout.ofTy) >>= fun ws =>
      (ws.zip ts).mapM fun m => inWindow p bs.toArray m.1 (get m.2) := by
  unfold getMembers
  rw [run_position_bind, run_readAll_bind, run_ofExcept_bind]
  simp only [run_ofExcept]

theorem run_getElements_eq {l : Layout} {get : Get Value} {ws : List Window}
    (h : elementWindows bs.toArray l = .ok ws) :
    run (getElements l get) ⟨p, bs, []⟩ = ws.mapM fun w => inside (p + w.start) (w.slice bs) get := by
  obtain ⟨f, hf, hws⟩ := except_bind_eq_ok.1 h
  rw [run_getElements_bind, hf]
  refine (mapM_bind_of_ok hws).trans ?_
  simp only [inWindow_toArray]

theorem run_getMembers_eq {get : Ty → Get Value} {ts : List Ty} {ws : List Window}
    (h : windows bs.toArray (ts.map Layout.ofTy) = .ok ws) :
    run (getMembers get ts) ⟨p, bs, []⟩ =
      (ws.zip ts).mapM fun m => inside (p + m.1.start) (m.1.slice bs) (get m.2) := by
  rw [run_getMembers_bind, h]
  simp only [inWindow_toArray]
  rfl

/-- What the windows of an array hold. -/
theorem run_getElements_eq_ok {l : Layout} {get : Get Value} {items : List Value} :
    run (getElements l get) ⟨p, bs, []⟩ = .ok items ↔
      ∃ ws, elementWindows bs.toArray l = .ok ws ∧
        List.Forall₂ (fun w v => inside (p + w.start) (w.slice bs) get = .ok v) ws items := by
  rw [run_getElements_bind]
  unfold elementWindows
  simp only [mapM_bind_eq_ok_iff, except_bind_eq_ok, inWindow_toArray]
  constructor
  · rintro ⟨f, hf, ws, hws, h⟩
    exact ⟨ws, ⟨f, hf, hws⟩, h⟩
  · rintro ⟨ws, ⟨f, hf, hws⟩, h⟩
    exact ⟨f, hf, ws, hws, h⟩

/-- What the windows of a struct or dict entry hold. -/
theorem run_getMembers_eq_ok {get : Ty → Get Value} {ts : List Ty} {members : List Value} :
    run (getMembers get ts) ⟨p, bs, []⟩ = .ok members ↔
      ∃ ws, windows bs.toArray (ts.map Layout.ofTy) = .ok ws ∧
        List.Forall₂ (fun m v => inside (p + m.1.start) (m.1.slice bs) (get m.2) = .ok v) (ws.zip ts) members := by
  rw [run_getMembers_bind, except_bind_eq_ok]
  simp only [mapM_eq_ok_iff, inWindow_toArray]

/-- Members read as values of their types, said of the members alone. -/
theorem forall₂_zip_iff {R : Window → Ty → Value → Prop} : ∀ {ts : List Ty} {ws : List Window} {members : List Value},
    ts.length = ws.length →
      (List.Forall₂ (fun m v => R m.1 m.2 v ∧ v.ty = m.2) (ws.zip ts) members ↔
        Value.tys members = ts ∧ List.Forall₂ (fun v w => R w v.ty v) members ws)
  | [], [], members, _ => by
    rw [List.zip_nil_left, List.forall₂_nil_left_iff, List.forall₂_nil_right_iff]
    refine ⟨fun h => ⟨by rw [h]; rfl, h⟩, And.right⟩
  | t :: ts, w :: ws, [], _ => by
    rw [List.zip_cons_cons, List.forall₂_nil_right_iff]
    exact ⟨nofun, nofun⟩
  | t :: ts, w :: ws, v :: members, h => by
    rw [List.zip_cons_cons, List.forall₂_cons, forall₂_zip_iff (Nat.succ_inj.1 h), List.forall₂_cons, Value.tys,
      List.cons.injEq]
    constructor
    · rintro ⟨⟨hv, rfl⟩, htys, hmembers⟩
      exact ⟨⟨rfl, htys⟩, hv, hmembers⟩
    · rintro ⟨⟨rfl, htys⟩, hv, hmembers⟩
      exact ⟨⟨hv, rfl⟩, htys, hmembers⟩

/-! ## Scalars -/

theorem takes_getScalar {o : ByteOrder} {s : Scalar} (hs : s.isWellFormed = true) (h : scalarBytes o s = .ok bs) :
    Takes (getScalar o s.basic) p bs s := by
  cases s with
  | int k n =>
    refine Reads.takes ?_
    exact (reads_int (pos_of_dvd_eight k.width_dvd_eight) h).map
  | boolean b =>
    refine Reads.takes ?_
    exact (reads_boolean (by decide) h).map
  | double bits =>
    cases h
    refine Reads.takes ?_
    exact (reads_double o bits).map
  | text k s =>
    simp only [Scalar.isWellFormed, Bool.and_eq_true, Bool.not_eq_true', List.contains_eq_mem,
      decide_eq_false_iff_not] at hs
    cases k with
    | string => exact (takes_string hs.1 h).bind (reads_pure _)
    | objectPath => exact (takes_objectPath hs.1 hs.2 h).bind (reads_pure _)
    | signature =>
      obtain ⟨ts, hts⟩ : ∃ ts, Signature.parseAll {} (Text.ofString s) = .ok ts := by
        have hvalid : Signature.isValid (Text.ofString s) = true := hs.2
        unfold Signature.isValid at hvalid
        cases hp : Signature.parseAll {} (Text.ofString s) with
        | ok ts => exact ⟨ts, rfl⟩
        | error e =>
          rw [hp] at hvalid
          cases hvalid
      have hp : Signature.parseAll { format := some .gvariant } (Text.ofString s) = .ok ts := by
        obtain ⟨htext, hlen, hts⟩ := Signature.parseAll_eq_ok_iff.1 hts
        exact Signature.parseAll_eq_ok_iff.2 ⟨htext, hlen, fun t ht => Signature.accepts_gvariant_iff.2 (hts t ht)⟩
      exact (takes_signature hp h).bind (reads_pure _)

theorem finds_getScalar (o : ByteOrder) (b : Basic) :
    Finds (getScalar o b) p fun bs s => s.basic = b ∧ scalarBytes o s = .ok bs := by
  cases b with
  | int k =>
    exact (finds_int (pos_of_dvd_eight k.width_dvd_eight)).map fun bs n h => ⟨rfl, h⟩
  | boolean =>
    exact (finds_boolean (by decide)).map fun bs b h => ⟨rfl, h⟩
  | double =>
    exact (finds_double o).map fun bs d h => ⟨rfl, congrArg Except.ok h⟩
  | text k =>
    cases k with
    | string =>
      exact (finds_string 0 o).map fun bs s h => ⟨rfl, h.1⟩
    | objectPath =>
      exact (finds_objectPath 0 o).map fun bs s h => ⟨rfl, h⟩
    | signature =>
      exact (finds_signature false (some .gvariant)).map fun bs s h => ⟨rfl, h.1⟩

/-! ## Variants -/

/-- A list splits at its last zero in only one way. -/
theorem splitVariant_eq_some_iff {value signature : List UInt8} :
    splitVariant bs = some (value, signature) ↔ bs = value ++ 0 :: signature ∧ (0 : UInt8) ∉ signature := by
  unfold splitVariant
  constructor
  · intro h
    have hback := List.takeWhile_append_dropWhile (p := (· ≠ 0)) (l := bs.reverse)
    have hmem : (0 : UInt8) ∉ (bs.reverse.takeWhile (· ≠ 0)).reverse := by
      rw [List.mem_reverse]
      intro h0
      have hne := List.mem_takeWhile_imp h0
      simp at hne
    generalize hd : bs.reverse.dropWhile (· ≠ 0) = d at hback
    cases d with
    | nil =>
      rw [List.append_nil] at hback
      rw [hback, List.reverse_reverse] at h
      simp at h
    | cons x d =>
      have hx : x = 0 := by
        have hnot := List.head?_dropWhile_not (· ≠ 0) bs.reverse
        rw [hd] at hnot
        simpa using hnot
      subst hx
      rw [eq_comm, List.reverse_eq_iff, List.reverse_append, List.reverse_cons, List.append_assoc,
        List.singleton_append] at hback
      generalize (bs.reverse.takeWhile (· ≠ 0)).reverse = s at h hmem hback
      subst hback
      simp only at h
      rw [if_pos (by simp only [List.length_append, List.length_cons]; omega)] at h
      obtain ⟨rfl, rfl⟩ := Prod.mk.inj (Option.some.inj h)
      refine ⟨?_, hmem⟩
      congr 1
      rw [List.take_left']
      simp only [List.length_append, List.length_cons]
      omega
  · rintro ⟨rfl, h0⟩
    have hsignature : ((value ++ 0 :: signature).reverse.takeWhile (· ≠ 0)).reverse = signature := by
      rw [List.reverse_append, List.reverse_cons, List.append_assoc, List.singleton_append,
        List.takeWhile_append_of_pos,
        List.takeWhile_cons_of_neg (by simp), List.append_nil, List.reverse_reverse]
      intro x hx
      rw [List.mem_reverse] at hx
      exact decide_eq_true fun h : x = 0 => h0 (h ▸ hx)
    simp only [hsignature, List.length_append, List.length_cons]
    rw [if_pos (by omega), List.take_left' (by omega)]

/-- A signature is one byte for each character. -/
theorem map_toNat_eq_signature_iff {t : Ty} : bs.map UInt8.toNat = t.signature ↔ bs = t.signature.map UInt8.ofNat := by
  constructor
  · intro h
    rw [← h, List.map_map]
    exact ((List.map_congr_left fun b _ => UInt8.ofNat_toNat).trans (List.map_id bs)).symm
  · rintro rfl
    rw [List.map_map]
    refine (List.map_congr_left fun x hx => ?_).trans (List.map_id _)
    exact UInt8.toNat_ofNat_of_lt' ((Ty.mem_signature hx).2.trans (by decide))

theorem ascii_of_signature {t : Ty} {b : UInt8} (h : b ∈ t.signature.map UInt8.ofNat) : b ≠ 0 ∧ b < 0x80 := by
  have hmem : b.toNat ∈ t.signature := by
    rw [← map_toNat_eq_signature_iff.2 rfl]
    exact List.mem_map_of_mem h
  obtain ⟨hpos, hlt⟩ := Ty.mem_signature hmem
  refine ⟨?_, UInt8.lt_iff_toNat_lt.2 hlt⟩
  rintro rfl
  exact absurd hpos (lt_irrefl 0)

theorem splitVariant_signature (value : List UInt8) (t : Ty) :
    splitVariant (value ++ 0 :: t.signature.map UInt8.ofNat) = some (value, t.signature.map UInt8.ofNat) :=
  splitVariant_eq_some_iff.2 ⟨rfl, fun h0 => (ascii_of_signature h0).1 rfl⟩

/-- **The type whose signature stands in bytes** is the one whose signature they are. -/
theorem signatureType_eq_ok {t : Ty} :
    signatureType c bs = .ok t ↔ bs = t.signature.map UInt8.ofNat ∧ t.signature.length ≤ Limits.signatureLength ∧
      Signature.Accepts c.reading {} t := by
  unfold signatureType
  constructor
  · intro h
    split at h
    · cases h
    simp only at h
    split at h
    · cases h
    rw [mapError_eq_ok, Signature.parse_eq_ok_iff] at h
    obtain ⟨h1, h2, h3⟩ := h
    rw [h1] at h2
    exact ⟨map_toNat_eq_signature_iff.1 h1, h2, h3⟩
  · rintro ⟨rfl, hlen, hacc⟩
    have hascii : (t.signature.map UInt8.ofNat).takeWhile (· < 0x80) = t.signature.map UInt8.ofNat :=
      List.takeWhile_eq_self_iff.2 fun b hb => decide_eq_true (ascii_of_signature hb).2
    rw [if_neg (by rw [List.length_map]; omega)]
    simp only [hascii, List.drop_length, mapError_eq_ok, map_toNat_eq_signature_iff.2 rfl]
    exact Signature.parse_eq_ok_iff.2 ⟨rfl, hlen, hacc⟩

/-! ## Every kind of type -/

variable {v : Value}

/-- A basic value takes exactly its bytes. -/
theorem inside_basic {b : Basic} (hp : ((Ty.basic b).gvariantAlignment : Int) ∣ p)
    (h : inside p bs (get c (room + 1) (.basic b)) = .ok v) :
    ∃ s, v = .scalar s ∧ s.basic = b ∧ scalarBytes c.order s = .ok bs := by
  obtain ⟨s, hs, rfl⟩ := run_bind_pure_eq_ok.1 ((run_pad_bind hp).symm.trans h)
  exact ⟨s, rfl, (finds_getScalar c.order b).of_run hs⟩

theorem inside_scalar {s : Scalar} (hp : ((Ty.basic s.basic).gvariantAlignment : Int) ∣ p) (hs : s.isWellFormed = true)
    (h : scalarBytes c.order s = .ok bs) : inside p bs (get c (room + 1) (.basic s.basic)) = .ok (.scalar s) :=
  (run_pad_bind hp).trans (run_bind_pure_eq_ok.2 ⟨s, (takes_getScalar hs h).run, rfl⟩)

theorem inside_array {t : Ty} (hp : ((Ty.array t).gvariantAlignment : Int) ∣ p) :
    inside p bs (get c (room + 1) (.array t)) =
      (run (getElements (Layout.ofTy t) (get c room t)) ⟨p, bs, []⟩).map (.array t) :=
  (run_pad_bind hp).trans run_bind_pure

theorem inside_array_eq_ok {t : Ty} (hp : ((Ty.array t).gvariantAlignment : Int) ∣ p) :
    inside p bs (get c (room + 1) (.array t)) = .ok v ↔
      ∃ items, run (getElements (Layout.ofTy t) (get c room t)) ⟨p, bs, []⟩ = .ok items ∧ v = .array t items := by
  rw [inside_array hp, except_map_eq_ok]
  simp only [eq_comm]

theorem inside_struct {ts : List Ty} (hp : ((Ty.struct ts).gvariantAlignment : Int) ∣ p) :
    inside p bs (get c (room + 1) (.struct ts)) = (run (getMembers (get c room) ts) ⟨p, bs, []⟩).map .struct :=
  (run_pad_bind hp).trans run_bind_pure

theorem inside_struct_eq_ok {ts : List Ty} (hp : ((Ty.struct ts).gvariantAlignment : Int) ∣ p) :
    inside p bs (get c (room + 1) (.struct ts)) = .ok v ↔
      ∃ members, run (getMembers (get c room) ts) ⟨p, bs, []⟩ = .ok members ∧ v = .struct members := by
  rw [inside_struct hp, except_map_eq_ok]
  simp only [eq_comm]

/-- The dict entry of a key and a value. -/
def entryOf : List Value → Value
  | [.scalar k, w] => .entry k w
  | members => .struct members

theorem inside_entry {k : Basic} {t : Ty} (hp : ((Ty.entry k t).gvariantAlignment : Int) ∣ p) :
    inside p bs (get c (room + 1) (.entry k t)) =
      (run (getMembers (get c room) [.basic k, t]) ⟨p, bs, []⟩).map entryOf := by
  refine (run_pad_bind hp).trans ?_
  rw [← run_bind_pure]
  refine congrArg (fun next => run (getMembers (get c room) [.basic k, t] >>= next) ⟨p, bs, []⟩) ?_
  funext members
  match members with
  | [] => rfl
  | [m] | m :: _ :: _ :: _ | [m, _] => cases m <;> rfl

theorem inside_entry_eq_ok {k : Basic} {t : Ty} (hp : ((Ty.entry k t).gvariantAlignment : Int) ∣ p) :
    inside p bs (get c (room + 1) (.entry k t)) = .ok v ↔
      ∃ members, run (getMembers (get c room) [.basic k, t]) ⟨p, bs, []⟩ = .ok members ∧ v = entryOf members := by
  rw [inside_entry hp, except_map_eq_ok]
  simp only [eq_comm]

/-- A key and a value of their types make a dict entry of its type. -/
theorem eq_of_tys_entry {k : Basic} {t : Ty} : ∀ {members : List Value}, Value.tys members = [.basic k, t] →
    ∃ s w, members = [.scalar s, w] ∧ s.basic = k ∧ w.ty = t
  | [m, w], h => by
    simp only [Value.tys, List.cons.injEq, and_true] at h
    cases m with
    | scalar s => exact ⟨s, w, rfl, Ty.basic.inj h.1, h.2⟩
    | array | struct | entry | variant | nothing | just => cases h.1
  | [_], h | _ :: _ :: _ :: _, h => by simp [Value.tys] at h

theorem inside_variant {value signature : List UInt8} (hp : (Ty.variant.gvariantAlignment : Int) ∣ p)
    (h : splitVariant bs = some (value, signature)) :
    inside p bs (get c (room + 1) .variant) = (do
      let t ← (signatureType c signature).mapError .decode
      (inside p value (get c room t)).map .variant) := by
  refine (run_pad_bind hp).trans ?_
  simp only
  rw [run_position_bind, run_readAll_bind]
  simp only [h, run_ofExcept_bind]
  refine congrArg _ (funext fun t => ?_)
  cases inside p value (get c room t) <;> rfl

theorem inside_variant_eq_ok (hp : (Ty.variant.gvariantAlignment : Int) ∣ p) :
    inside p bs (get c (room + 1) .variant) = .ok v ↔ ∃ value signature t w, splitVariant bs = some (value, signature) ∧
      signatureType c signature = .ok t ∧ inside p value (get c room t) = .ok w ∧ v = .variant w := by
  cases hsplit : splitVariant bs with
  | none =>
    have hfail : inside p bs (get c (room + 1) .variant) = .error (.decode .noSeparator) := by
      refine (run_pad_bind hp).trans ?_
      simp only
      rw [run_position_bind, run_readAll_bind]
      simp only [hsplit]
      rfl
    rw [hfail]
    refine ⟨nofun, ?_⟩
    rintro ⟨value, signature, t, w, h, -⟩
    cases h
  | some split =>
    obtain ⟨value, signature⟩ := split
    rw [inside_variant hp hsplit]
    simp only [except_bind_eq_ok, mapError_eq_ok, except_map_eq_ok]
    constructor
    · rintro ⟨t, ht, w, hw, rfl⟩
      exact ⟨value, signature, t, w, rfl, ht, hw, rfl⟩
    · rintro ⟨value, signature, t, w, h, ht, hw, rfl⟩
      cases h
      exact ⟨t, ht, w, hw, rfl⟩

theorem inside_nothing {t : Ty} (hp : ((Ty.maybe t).gvariantAlignment : Int) ∣ p) :
    inside p [] (get c (room + 1) (.maybe t)) = .ok (.nothing t) := run_pad_bind hp

/-- What ends a value in a maybe tells it from none. -/
theorem inside_just {t : Ty} {content : List UInt8} (hp : ((Ty.maybe t).gvariantAlignment : Int) ∣ p)
    (hne : content ++ justEnd t ≠ []) :
    inside p (content ++ justEnd t) (get c (room + 1) (.maybe t)) = (inside p content (get c room t)).map .just := by
  have hjust (bs : List UInt8) (s : Source) (hs : s.rest = [] ∧ s.caps = []) :
      run (Get.ofExcept (inside p bs (get c room t)) >>= fun w => pure (Value.just w)) s =
        (inside p bs (get c room t)).map .just := by
    obtain ⟨q, rest, caps⟩ := s
    obtain ⟨rfl, rfl⟩ := hs
    rw [run_bind_pure, run_ofExcept]
  refine (run_pad_bind hp).trans ?_
  simp only
  rw [run_position_bind, run_readAll_bind, if_neg (mt List.isEmpty_iff.1 hne)]
  unfold justEnd
  split
  · rw [hjust _ _ ⟨rfl, rfl⟩, List.append_nil]
  · rw [if_neg (by simp), hjust _ _ ⟨rfl, rfl⟩, List.dropLast_concat]

theorem inside_maybe_eq_ok {t : Ty} (hp : ((Ty.maybe t).gvariantAlignment : Int) ∣ p) :
    inside p bs (get c (room + 1) (.maybe t)) = .ok v ↔ bs = [] ∧ v = .nothing t ∨
      bs ≠ [] ∧ ∃ content w, bs = content ++ justEnd t ∧ inside p content (get c room t) = .ok w ∧ v = .just w := by
  by_cases hnil : bs = []
  · subst hnil
    rw [inside_nothing hp, Except.ok.injEq, eq_comm]
    simp
  simp only [hnil, false_and, false_or, ne_eq, not_false_eq_true, true_and]
  by_cases hends : ∃ content, bs = content ++ justEnd t
  · obtain ⟨content, rfl⟩ := hends
    rw [inside_just hp hnil, except_map_eq_ok]
    constructor
    · rintro ⟨w, hw, rfl⟩
      exact ⟨content, w, rfl, hw, rfl⟩
    · rintro ⟨content', w, h, hw, rfl⟩
      rw [List.append_cancel_right h]
      exact ⟨w, hw, rfl⟩
  · refine iff_of_false (fun h => ?_) fun ⟨content, w, h, _⟩ => hends ⟨content, h⟩
    unfold justEnd at hends
    by_cases hfixed : t.fixedSize.isSome = true
    · rw [if_pos hfixed] at hends
      exact hends ⟨bs, (List.append_nil bs).symm⟩
    rw [if_neg hfixed] at hends
    have hlast : bs.getLast? ≠ some 0 := fun h0 => hends ⟨bs.dropLast, (List.dropLast_append_getLast? 0 h0).symm⟩
    have hrun := (run_pad_bind hp).symm.trans h
    simp only at hrun
    rw [run_position_bind, run_readAll_bind, if_neg (mt List.isEmpty_iff.1 hnil), if_neg hfixed, if_pos hlast] at hrun
    exact absurd hrun run_fail

end Gvariant

end Marshal
