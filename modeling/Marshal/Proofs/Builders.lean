import Marshal.Proofs.Formation
import Marshal.Proofs.Framing.Tables
import Marshal.Proofs.Outcome
import Marshal.Value.OfPlain
import Marshal.Value.ToPlain
import Marshal.Value.WellFormed
/-!
# What the builders of values give

A value is built from plain data of a type, from children that are values, from what data implies, or from parts whose
types tell its own. Values that were built before can stand anywhere in the data. `Value.Built` holds of all that comes
out of the builders in this way, one step after another.

Every builder checks what it is given, so whatever it gives is well-formed, and of the type that it was told if it was
told one: `Value.Conforms` says so of each. In the other direction nothing well-formed is out of reach: each value is
built out of its own children.
-/
namespace Marshal

/-! ## Values in plain data -/

namespace Plain

mutual
/-- The values that stand in data, at any level. -/
def values : Plain → List Value
  | .sequence _ ps | .cells _ ps => valuesAmong ps
  | .mapping es => valuesInEntries es
  | .typed v => [v]
  | .none | .boolean _ | .integer _ | .float _ | .text _ | .bytes _ _ | .unwalkable _ | .object => []

def valuesAmong : List Plain → List Value
  | [] => []
  | p :: ps => values p ++ valuesAmong ps

def valuesInEntries : List (Plain × Plain) → List Value
  | [] => []
  | e :: es => valuesInEntry e ++ valuesInEntries es

def valuesInEntry : Plain × Plain → List Value
  | (k, v) => values k ++ values v
end

theorem mem_valuesAmong_iff {w : Value} : ∀ {ps : List Plain}, w ∈ valuesAmong ps ↔ ∃ p ∈ ps, w ∈ p.values
  | [] => by simp [valuesAmong]
  | p :: ps => by rw [valuesAmong, List.mem_append, mem_valuesAmong_iff, List.exists_mem_cons_iff]

theorem mem_valuesInEntries_iff {w : Value} :
    ∀ {es : List (Plain × Plain)}, w ∈ valuesInEntries es ↔ ∃ e ∈ es, w ∈ e.1.values ∨ w ∈ e.2.values
  | [] => by simp [valuesInEntries]
  | (k, v) :: es => by
    rw [valuesInEntries, List.mem_append, mem_valuesInEntries_iff, List.exists_mem_cons_iff, valuesInEntry,
      List.mem_append]

/-- Items hold no values but those of the data. -/
theorem values_subset_of_items? {p q : Plain} {ps : List Plain} (h : p.items? = some ps) (hq : q ∈ ps) :
    q.values ⊆ p.values := by
  cases p with
  | sequence k qs | cells bs qs =>
    cases h
    exact fun w hw => mem_valuesAmong_iff.2 ⟨q, hq, hw⟩
  | bytes k bs =>
    cases k <;> cases h
    obtain ⟨b, -, rfl⟩ := List.mem_map.1 hq
    exact List.nil_subset _
  | _ => cases h

end Plain

/-! ## Scalars -/

theorem Text.toString?_eq_some_iff {t : Text} {s : String} : t.toString? = some s ↔ t = ofString s := by
  constructor
  · intro h
    unfold toString? at h
    split at h
    · rename_i hscalar
      obtain rfl := Option.some.inj h
      rw [ofString, String.toList_ofList, List.map_map]
      exact ((List.map_congr_left fun c hc => Utf8.toNat_charOfNat (hscalar c hc)).trans (List.map_id t)).symm
    · cases h
  · rintro rfl
    exact toString?_ofString s

namespace Scalar

/-- Text is taken exactly when it has no surrogates, no NUL, and is what its kind says. -/
theorem checkText_eq_ok {k : TextKind} {t : Text} {s : String} :
    checkText k t = .ok s ↔ t = Text.ofString s ∧ 0 ∉ t ∧ k.admits t = true := by
  unfold checkText
  by_cases h0 : t.contains 0 = true
  · rw [if_pos h0]
    exact ⟨nofun, fun h => absurd (List.contains_iff_mem.1 h0) h.2.1⟩
  rw [if_neg h0]
  rw [List.contains_iff_mem] at h0
  rw [← Text.toString?_eq_some_iff]
  cases t.toString? with
  | none => exact ⟨nofun, fun h => nomatch h.1⟩
  | some s' =>
    have hadmits (valid : Bool) (m : Mismatch) :
        (if valid then .ok s' else mismatch m : Except Error String) = .ok s ↔ s' = s ∧ valid = true := by
      cases valid <;> simp [mismatch]
    cases k with
    | string => simp [TextKind.admits, h0]
    | objectPath => simp [TextKind.admits, h0, hadmits]
    | signature => simp [TextKind.admits, h0, hadmits]

theorem conforms_of_ofPlain {b : Basic} {p : Plain} {s : Scalar} (h : ofPlain b p = .ok s) : s.Conforms b := by
  unfold ofPlain at h
  split at h
  · split at h
    · rename_i hfits
      cases h
      exact conforms_int hfits
    · cases h
  · cases h
  · cases h
    exact ⟨rfl, rfl⟩
  · cases h
  · cases h
    exact ⟨rfl, rfl⟩
  · split at h
    · cases h
      exact ⟨rfl, rfl⟩
    · cases h
  · cases h
  · obtain ⟨s, hs, rfl⟩ := except_map_eq_ok.1 h
    obtain ⟨rfl, h0, hv⟩ := checkText_eq_ok.1 hs
    exact conforms_text h0 hv
  · cases h

/-- A well-formed scalar comes out of its own data. -/
theorem ofPlain_toPlain {s : Scalar} (h : s.isWellFormed = true) : ofPlain s.basic s.toPlain = .ok s := by
  cases s with
  | int k n =>
    have hfits : Integer.Fits k.width k.isSigned n := of_decide_eq_true h
    exact if_pos hfits
  | boolean b => rfl
  | double x => rfl
  | text k s =>
    simp only [isWellFormed, Bool.and_eq_true, Bool.not_eq_true', List.contains_eq_mem, decide_eq_false_iff_not] at h
    exact except_map_eq_ok.2 ⟨s, checkText_eq_ok.2 ⟨rfl, h.1, h.2⟩, rfl⟩

@[simp] theorem values_toPlain (s : Scalar) : s.toPlain.values = [] := by
  cases s <;> rfl

end Scalar

/-! ## From plain data -/

namespace Value

variable {t : Ty} {p : Plain} {v : Value}

theorem itemsFor_eq_ok {ps : List Plain} : itemsFor t p = .ok ps ↔ p.items? = some ps := by
  unfold itemsFor
  split
  · exact iff_of_false nofun nofun
  · cases p.items? <;> simp [mismatch]

theorem values_subset_of_arrayItems {ps : List Plain} {q : Plain} (h : arrayItems t p = .ok ps) (hq : q ∈ ps) :
    q.values ⊆ p.values := by
  unfold arrayItems at h
  split at h
  · split at h
    · cases h
      obtain ⟨⟨k, w⟩, he, rfl⟩ := List.mem_map.1 hq
      intro u hu
      have hu : u ∈ k.values ∨ u ∈ w.values := by simpa [Plain.values, Plain.valuesAmong] using hu
      exact Plain.mem_valuesInEntries_iff.2 ⟨(k, w), he, hu⟩
    · exact Plain.values_subset_of_items? (itemsFor_eq_ok.1 h) hq
  · exact Plain.values_subset_of_items? (itemsFor_eq_ok.1 h) hq

theorem pairFor_eq_ok {k w : Plain} : pairFor t p = .ok (k, w) ↔ p.items? = some [k, w] := by
  unfold pairFor
  simp only [except_bind_eq_ok, itemsFor_eq_ok]
  constructor
  · rintro ⟨ps, hps, h⟩
    split at h
    · cases h
      exact hps
    · cases h
  · exact fun h => ⟨_, h, rfl⟩

theorem membersFor_eq_ok {ts : List Ty} {ps : List Plain} :
    membersFor ts p = .ok ps ↔ p.items? = some ps ∧ ps.length = ts.length := by
  unfold membersFor
  simp only [except_bind_eq_ok, itemsFor_eq_ok]
  constructor
  · rintro ⟨qs, hqs, h⟩
    split at h
    · cases h
    · rename_i hlen
      cases h
      exact ⟨hqs, not_not.1 hlen⟩
  · rintro ⟨h, hlen⟩
    exact ⟨ps, h, if_neg (not_not.2 hlen)⟩

/-- Data that is a value is taken as it is only if it has the type. -/
theorem typedOr_eq_ok {wraps : Bool} {build : Except Error Value} (h : typedOr t p wraps build = .ok v) :
    (p = .typed v ∧ v.ty = t) ∨ build = .ok v := by
  unfold typedOr at h
  split at h
  · split at h
    · rename_i hty
      cases h
      exact .inl ⟨rfl, hty⟩
    split at h
    · exact .inr h
    · cases h
  · exact .inr h

theorem conforms_wrap {w : Value} (hw : w.isWellFormed = true) (h : wrap w = .ok v) : v.Conforms .variant := by
  unfold wrap at h
  split at h
  · cases h
  · rename_i he
    cases h
    exact conforms_variant (Bool.eq_false_iff.2 he) ⟨rfl, hw⟩

/-- A byte as a value. -/
theorem conforms_ofByte (b : UInt8) : (ofByte b).Conforms .byte :=
  conforms_scalar (Scalar.conforms_int (k := .byte) (Integer.fits_natCast_iff.2 b.toNat_lt))

theorem conforms_ofBytes (bs : List UInt8) : (Value.array .byte (bs.map ofByte)).Conforms (.array .byte) := by
  refine conforms_array rfl fun v hv => ?_
  obtain ⟨b, -, rfl⟩ := List.mem_map.1 hv
  exact conforms_ofByte b

theorem isWellFormed_of_infer (hp : ∀ w ∈ p.values, w.isWellFormed = true) (h : infer p = .ok v) :
    v.isWellFormed = true := by
  have hscalar {b : Basic} {p : Plain} (h : (Scalar.ofPlain b p).map Value.scalar = .ok v) : v.isWellFormed = true := by
    obtain ⟨s, hs, rfl⟩ := except_map_eq_ok.1 h
    exact (Scalar.conforms_of_ofPlain hs).isWellFormed
  unfold infer at h
  split at h
  · cases h
    exact hp v List.mem_cons_self
  · cases h
    rfl
  · exact hscalar h
  · cases h
    rfl
  · exact hscalar h
  · cases h
    exact (conforms_ofBytes _).isWellFormed
  · cases h
    exact (conforms_ofBytes _).isWellFormed
  · cases h

theorem conforms_key {k : Basic} {s : Scalar} (hp : ∀ w ∈ p.values, w.isWellFormed = true)
    (h : keyOfPlain k p = .ok s) : s.Conforms k := by
  unfold keyOfPlain at h
  split at h
  · split at h
    · rename_i hs
      cases h
      exact ⟨hs, hp _ List.mem_cons_self⟩
    · cases h
  · cases h
  · exact Scalar.conforms_of_ofPlain h

/-- Data that is a value already, or else what is built from it, where that conforms. -/
theorem conforms_typedOr {wraps : Bool} {build : Except Error Value} (hp : ∀ w ∈ p.values, w.isWellFormed = true)
    (h : typedOr t p wraps build = .ok v) (hb : build = .ok v → v.Conforms t) : v.Conforms t := by
  rcases typedOr_eq_ok h with ⟨rfl, hty⟩ | h
  · exact ⟨hty, hp v List.mem_cons_self⟩
  · exact hb h

mutual
/-- **What is built from plain data of a type is well-formed and of that type.** -/
theorem conforms_of_ofPlain : ∀ {t : Ty} {p : Plain} {v : Value}, t.isFormed = true →
    (∀ w ∈ p.values, w.isWellFormed = true) → ofPlain t p = .ok v → v.Conforms t
  | .basic b, p, v, _, hp, h => conforms_typedOr hp h fun h => by
    obtain ⟨s, hs, h⟩ := except_bind_eq_ok.1 h
    cases h
    exact conforms_scalar (Scalar.conforms_of_ofPlain hs)
  | .array t, p, v, ht, hp, h => by
    unfold ofPlain at h
    refine conforms_typedOr hp h fun h => ?_
    have hformed : t.isFormed = true := by
      rw [Ty.isFormed, Bool.and_eq_true] at ht
      exact ht.1
    split at h
    · cases h
      exact conforms_ofBytes _
    · obtain ⟨ps, hps, h⟩ := except_bind_eq_ok.1 h
      obtain ⟨vs, hvs, h⟩ := except_bind_eq_ok.1 h
      cases h
      refine conforms_array ht fun w hw => ?_
      obtain ⟨q, hq, hqw⟩ := exists_of_mem_mapM hvs hw
      exact conforms_of_ofPlain hformed (fun u hu => hp u (values_subset_of_arrayItems hps hq hu)) hqw
  | .struct ts, p, v, ht, hp, h => conforms_typedOr hp h fun h => by
    obtain ⟨ps, hps, h⟩ := except_bind_eq_ok.1 h
    obtain ⟨vs, hvs, h⟩ := except_bind_eq_ok.1 h
    cases h
    obtain ⟨hitems, hlen⟩ := membersFor_eq_ok.1 hps
    have hformed : ∀ t ∈ ts, t.isFormed = true := by
      simp only [Ty.isFormed, Bool.and_eq_true, Ty.areMembers_iff] at ht
      exact fun t h => (ht.1.2 t h).1
    exact conforms_struct ht (conform_of_ofPlains hformed hlen
      (fun q hq u hu => hp u (Plain.values_subset_of_items? hitems hq hu)) hvs)
  | .entry k t, p, v, ht, hp, h => conforms_typedOr hp h fun h => by
    obtain ⟨⟨kp, wp⟩, hpair, h⟩ := except_bind_eq_ok.1 h
    obtain ⟨s, hs, h⟩ := except_bind_eq_ok.1 h
    obtain ⟨w, hw, h⟩ := except_bind_eq_ok.1 h
    cases h
    have hitems := pairFor_eq_ok.1 hpair
    have hformed : t.isFormed = true := by
      simp only [Ty.isFormed, Bool.and_eq_true] at ht
      exact ht.1.1
    refine conforms_entry ht (conforms_key (fun u hu => ?_) hs) (conforms_of_ofPlain hformed (fun u hu => ?_) hw)
    · exact hp u (Plain.values_subset_of_items? hitems List.mem_cons_self hu)
    · exact hp u (Plain.values_subset_of_items? hitems (List.mem_cons_of_mem _ List.mem_cons_self) hu)
  | .variant, p, v, _, hp, h => conforms_typedOr hp h fun h => by
    obtain ⟨w, hw, h⟩ := except_bind_eq_ok.1 h
    exact conforms_wrap (isWellFormed_of_infer hp hw) h
  | .maybe t, p, v, ht, hp, h => conforms_typedOr hp h fun h => by
    have hformed : t.isFormed = true := by
      simp only [Ty.isFormed, Bool.and_eq_true] at ht
      exact ht.1
    split at h
    · cases h
      exact ⟨rfl, ht⟩
    · obtain ⟨w, hw, h⟩ := except_bind_eq_ok.1 h
      cases h
      exact conforms_just ht (conforms_of_ofPlain hformed hp hw)

theorem conform_of_ofPlains : ∀ {ts : List Ty} {ps : List Plain} {vs : List Value}, (∀ t ∈ ts, t.isFormed = true) →
    ps.length = ts.length → (∀ p ∈ ps, ∀ w ∈ p.values, w.isWellFormed = true) → ofPlains ts ps = .ok vs →
      List.Forall₂ Conforms ts vs
  | [], [], vs, _, _, _, h => by
    cases h
    exact .nil
  | t :: ts, p :: ps, vs, ht, hlen, hp, h => by
    obtain ⟨v, hv, h⟩ := except_bind_eq_ok.1 h
    obtain ⟨vs, hvs, h⟩ := except_bind_eq_ok.1 h
    cases h
    obtain ⟨ht, hts⟩ := List.forall_mem_cons.1 ht
    obtain ⟨hp, hps⟩ := List.forall_mem_cons.1 hp
    exact .cons (conforms_of_ofPlain ht hp hv) (conform_of_ofPlains hts (Nat.succ.inj hlen) hps hvs)
end

/-! ## From children -/

theorem child_eq_ok : child t p = .ok v ↔ p = .typed v ∧ v.ty = t := by
  unfold child
  split
  · rename_i w
    by_cases hw : w.ty = t
    · rw [if_pos hw, Except.ok.injEq, Plain.typed.injEq]
      exact ⟨fun h => ⟨h, h ▸ hw⟩, And.left⟩
    · rw [if_neg hw]
      exact ⟨nofun, fun ⟨h1, h2⟩ => absurd (Plain.typed.inj h1 ▸ h2) hw⟩
  · rename_i hp
    exact ⟨nofun, fun h => absurd h.1 (hp v)⟩

theorem conforms_child (hp : ∀ w ∈ p.values, w.isWellFormed = true) (h : child t p = .ok v) : v.Conforms t := by
  obtain ⟨rfl, hty⟩ := child_eq_ok.1 h
  exact ⟨hty, hp v List.mem_cons_self⟩

theorem conforms_childKey {k : Basic} {s : Scalar} (hp : ∀ w ∈ p.values, w.isWellFormed = true)
    (h : childKey k p = .ok s) : s.Conforms k := by
  unfold childKey at h
  split at h
  · split at h
    · rename_i hs
      cases h
      exact ⟨hs, hp _ List.mem_cons_self⟩
    · cases h
  · cases h
  · cases h

/-- **What is built from children is well-formed and of the type.** -/
theorem conforms_of_ofParts (ht : t.isFormed = true) (hp : ∀ w ∈ p.values, w.isWellFormed = true)
    (h : ofParts t p = .ok v) : v.Conforms t := by
  cases t with
  | basic b =>
    obtain ⟨s, hs, h⟩ := except_bind_eq_ok.1 h
    cases h
    exact conforms_scalar (Scalar.conforms_of_ofPlain hs)
  | array t =>
    obtain ⟨ps, hps, h⟩ := except_bind_eq_ok.1 h
    obtain ⟨vs, hvs, h⟩ := except_bind_eq_ok.1 h
    cases h
    refine conforms_array ht fun w hw => ?_
    obtain ⟨q, hq, hqw⟩ := exists_of_mem_mapM hvs hw
    exact conforms_child (fun u hu => hp u (Plain.values_subset_of_items? (itemsFor_eq_ok.1 hps) hq hu)) hqw
  | struct ts =>
    obtain ⟨ps, hps, h⟩ := except_bind_eq_ok.1 h
    obtain ⟨vs, hvs, h⟩ := except_bind_eq_ok.1 h
    cases h
    obtain ⟨hitems, hlen⟩ := membersFor_eq_ok.1 hps
    have htys : tys vs = ts := by
      refine tys_of_forall₂ ?_
      rw [← List.map_fst_zip hlen.ge]
      exact List.forall₂_map_left_iff.2 ((mapM_eq_ok_iff.1 hvs).imp fun _ _ hw => (child_eq_ok.1 hw).2)
    have hwf : ∀ w ∈ vs, w.isWellFormed = true := by
      intro w hw
      obtain ⟨m, hm, hmw⟩ := exists_of_mem_mapM hvs hw
      have hq := Plain.values_subset_of_items? hitems (List.of_mem_zip hm).2
      exact (conforms_child (fun u hu => hp u (hq hu)) hmw).isWellFormed
    refine ⟨by rw [ty, htys], ?_⟩
    rw [isWellFormed, htys, ht, areWellFormed_iff.2 hwf]
    rfl
  | entry k t =>
    obtain ⟨⟨kp, wp⟩, hpair, h⟩ := except_bind_eq_ok.1 h
    obtain ⟨s, hs, h⟩ := except_bind_eq_ok.1 h
    obtain ⟨w, hw, h⟩ := except_bind_eq_ok.1 h
    cases h
    have hitems := pairFor_eq_ok.1 hpair
    refine conforms_entry ht (conforms_childKey (fun u hu => ?_) hs) (conforms_child (fun u hu => ?_) hw)
    · exact hp u (Plain.values_subset_of_items? hitems List.mem_cons_self hu)
    · exact hp u (Plain.values_subset_of_items? hitems (List.mem_cons_of_mem _ List.mem_cons_self) hu)
  | variant =>
    cases p with
    | typed w => exact conforms_wrap (hp w List.mem_cons_self) h
    | _ => cases h
  | maybe t =>
    simp only [ofParts] at h
    split at h
    · cases h
      exact ⟨rfl, ht⟩
    · obtain ⟨w, hw, h⟩ := except_bind_eq_ok.1 h
      cases h
      exact conforms_just ht (conforms_child hp hw)

/-! ## All builders -/

/-- Whether a value comes out of the builders, where the types they are told come out of the formation functions and the
values they are given come out of the builders. A builder of basic values is `ofParts` for the basic type. -/
inductive Built : Value → Prop
  | ofPlain {t : Ty} {p : Plain} {v : Value} (ht : t.Constructed) (hp : ∀ w ∈ p.values, Built w)
    (h : Value.ofPlain t p = .ok v) : Built v
  | ofParts {t : Ty} {p : Plain} {v : Value} (ht : t.Constructed) (hp : ∀ w ∈ p.values, Built w)
    (h : Value.ofParts t p = .ok v) : Built v
  | infer {p : Plain} {v : Value} (hp : ∀ w ∈ p.values, Built w) (h : Value.infer p = .ok v) : Built v
  | arrayOf {t : Ty} {p : Plain} {v : Value} (ht : t.Constructed) (hp : ∀ w ∈ p.values, Built w)
    (h : Value.arrayOf t p = .ok v) : Built v
  | mappingOf {k t : Ty} {p : Plain} {v : Value} (hk : k.Constructed) (ht : t.Constructed)
    (hp : ∀ w ∈ p.values, Built w) (h : Value.mappingOf k t p = .ok v) : Built v
  | structOf {vs : List Value} {v : Value} (hvs : ∀ w ∈ vs, Built w) (h : Value.structOf vs = .ok v) : Built v
  | entryOf {k w v : Value} (hk : Built k) (hw : Built w) (h : Value.entryOf k w = .ok v) : Built v
  | variantOf {p : Plain} {v : Value} (hp : ∀ w ∈ p.values, Built w) (h : Value.variantOf p = .ok v) : Built v
  | maybeOf {t : Ty} {p : Plain} {v : Value} (ht : t.Constructed) (hp : ∀ w ∈ p.values, Built w)
    (h : Value.maybeOf t p = .ok v) : Built v
  | nothingOf {t : Ty} {v : Value} (ht : t.Constructed) (h : Value.nothingOf t = .ok v) : Built v

theorem isWellFormed_of_built {v : Value} (h : Built v) : v.isWellFormed = true := by
  have hform {r : Except FormError Ty} {u : Ty} (h : form r = .ok u) : r = .ok u := mapError_eq_ok.1 h
  have hplain {t : Ty} {p : Plain} {v : Value} (ht : t.Constructed) (hp : ∀ w ∈ p.values, w.isWellFormed = true)
      (h : Value.ofPlain t p = .ok v) : v.isWellFormed = true :=
    (conforms_of_ofPlain (Ty.isFormed_of_constructed ht) hp h).isWellFormed
  induction h with
  | ofPlain ht _ h ih => exact hplain ht ih h
  | ofParts ht _ h ih => exact (conforms_of_ofParts (Ty.isFormed_of_constructed ht) ih h).isWellFormed
  | infer _ h ih => exact isWellFormed_of_infer ih h
  | arrayOf ht _ h ih =>
    obtain ⟨u, hu, h⟩ := except_bind_eq_ok.1 h
    exact hplain (.array ht (hform hu)) ih h
  | mappingOf hk ht _ h ih =>
    obtain ⟨e, he, h⟩ := except_bind_eq_ok.1 h
    obtain ⟨u, hu, h⟩ := except_bind_eq_ok.1 h
    exact hplain (.array (.entry hk ht (hform he)) (hform hu)) ih h
  | @structOf vs v _ h ih =>
    obtain ⟨u, hu, h⟩ := except_bind_eq_ok.1 h
    cases h
    have hformed : u.isFormed = true := Ty.isFormed_of_constructed (.struct (fun t ht => ?_) (hform hu))
    · obtain ⟨-, -, -, rfl⟩ := Ty.structOf_eq_ok.1 (hform hu)
      rw [isWellFormed, tys_eq_map, hformed, areWellFormed_iff.2 ih]
      rfl
    · obtain ⟨w, hw, rfl⟩ := List.mem_map.1 ht
      exact Ty.constructed_of_isFormed _ (isFormed_ty (ih w hw))
  | @entryOf k w v _ _ h ihk ihw =>
    obtain ⟨u, hu, h⟩ := except_bind_eq_ok.1 h
    have hconstructed {v : Value} (hv : v.isWellFormed = true) := Ty.constructed_of_isFormed _ (isFormed_ty hv)
    have hformed := Ty.isFormed_of_constructed (.entry (hconstructed ihk) (hconstructed ihw) (hform hu))
    obtain ⟨b, hb, -, -, rfl⟩ := Ty.entryOf_eq_ok.1 (hform hu)
    cases k with
    | scalar s =>
      cases h
      obtain rfl := Ty.basic.inj hb
      exact (conforms_entry hformed ⟨rfl, ihk⟩ ⟨rfl, ihw⟩).isWellFormed
    | _ => cases h
  | variantOf _ h ih =>
    obtain ⟨w, hw, h⟩ := except_bind_eq_ok.1 h
    exact (conforms_wrap (isWellFormed_of_infer ih hw) h).isWellFormed
  | maybeOf ht _ h ih =>
    obtain ⟨u, hu, h⟩ := except_bind_eq_ok.1 h
    have hformed := Ty.isFormed_of_constructed (.maybe ht (hform hu))
    obtain ⟨-, rfl⟩ := Ty.maybeOf_eq_ok.1 (hform hu)
    split at h
    · cases h
      exact hformed
    · obtain ⟨w, hw, h⟩ := except_bind_eq_ok.1 h
      cases h
      have hcontent := conforms_of_ofPlain (Ty.isFormed_of_constructed ht) ih hw
      exact (conforms_just hformed hcontent).isWellFormed
  | nothingOf ht h =>
    obtain ⟨u, hu, h⟩ := except_bind_eq_ok.1 h
    cases h
    have hformed := Ty.isFormed_of_constructed (.maybe ht (hform hu))
    obtain ⟨-, rfl⟩ := Ty.maybeOf_eq_ok.1 (hform hu)
    exact hformed

theorem built_scalar {s : Scalar} (h : s.isWellFormed = true) : Built (.scalar s) :=
  .ofParts (.basic s.basic) (p := s.toPlain) (by simp) (except_bind_eq_ok.2 ⟨s, Scalar.ofPlain_toPlain h, rfl⟩)

theorem child_typed (v : Value) : child v.ty (.typed v) = .ok v := child_eq_ok.2 ⟨rfl, rfl⟩

theorem built_of_mem_values {vs : List Value} (h : ∀ v ∈ vs, Built v) :
    ∀ w ∈ (Plain.sequence .tuple (vs.map .typed)).values, Built w := by
  intro w hw
  obtain ⟨q, hq, hqw⟩ := Plain.mem_valuesAmong_iff.1 hw
  obtain ⟨v, hv, rfl⟩ := List.mem_map.1 hq
  exact List.mem_singleton.1 hqw ▸ h v hv

mutual
/-- Every well-formed value is built from its children. -/
theorem built_of_isWellFormed : ∀ v : Value, v.isWellFormed = true → Built v
  | .scalar s, h => built_scalar h
  | .array t vs, h => by
    have hformed := Ty.constructed_of_isFormed _ (isFormed_ty h)
    rw [isWellFormed, Bool.and_eq_true, areOf_iff] at h
    have hchildren : (vs.map Plain.typed).mapM (child t) = .ok vs := by
      refine mapM_eq_ok_iff.2 (List.forall₂_map_left_iff.2 (List.forall₂_same.2 fun v hv => ?_))
      exact (h.2 v hv).2 ▸ child_typed v
    exact .ofParts hformed (built_of_mem_values (built_of_areWellFormed vs fun v hv => (h.2 v hv).1))
      (except_bind_eq_ok.2 ⟨_, rfl, except_bind_eq_ok.2 ⟨vs, hchildren, rfl⟩⟩)
  | .struct vs, h => by
    have hformed := Ty.constructed_of_isFormed _ (isFormed_ty h)
    rw [isWellFormed, Bool.and_eq_true, areWellFormed_iff] at h
    have hitems : membersFor (tys vs) (.sequence .tuple (vs.map .typed)) = .ok (vs.map .typed) :=
      membersFor_eq_ok.2 ⟨rfl, by rw [tys_eq_map, List.length_map, List.length_map]⟩
    have hchildren : ((tys vs).zip (vs.map Plain.typed)).mapM (fun (t, p) => child t p) = .ok vs := by
      rw [tys_eq_map, List.zip_map']
      exact mapM_eq_ok_iff.2 (List.forall₂_map_left_iff.2 (List.forall₂_same.2 fun v _ => child_typed v))
    exact .ofParts hformed (built_of_mem_values (built_of_areWellFormed vs h.2))
      (except_bind_eq_ok.2 ⟨_, hitems, except_bind_eq_ok.2 ⟨vs, hchildren, rfl⟩⟩)
  | .entry k v, h => by
    have hformed := Ty.constructed_of_isFormed _ (isFormed_ty h)
    rw [isWellFormed, Bool.and_eq_true, Bool.and_eq_true] at h
    have hbuilt : ∀ w ∈ [.scalar k, v], Built w :=
      List.forall_mem_cons.2 ⟨built_scalar h.1.2, List.forall_mem_singleton.2 (built_of_isWellFormed v h.2)⟩
    have hkey : childKey k.basic (.typed (.scalar k)) = .ok k := if_pos rfl
    exact .ofParts hformed (built_of_mem_values hbuilt) (except_bind_eq_ok.2 ⟨_, pairFor_eq_ok.2 rfl,
      except_bind_eq_ok.2 ⟨k, hkey, except_bind_eq_ok.2 ⟨v, child_typed v, rfl⟩⟩⟩)
  | .variant v, h => by
    rw [isWellFormed, Bool.and_eq_true, Bool.not_eq_true'] at h
    have hbuilt := built_of_isWellFormed v h.2
    exact .ofParts .variant (p := .typed v) (List.forall_mem_singleton.2 hbuilt) (if_neg (by simp [h.1]))
  | .nothing t, h => .ofParts (Ty.constructed_of_isFormed _ h) (p := .none) (List.forall_mem_nil _) rfl
  | .just v, h => by
    have hformed := Ty.constructed_of_isFormed _ (isFormed_ty h)
    rw [isWellFormed, Bool.and_eq_true] at h
    have hbuilt := built_of_isWellFormed v h.2
    exact .ofParts hformed (p := .typed v) (List.forall_mem_singleton.2 hbuilt)
      (except_bind_eq_ok.2 ⟨v, child_typed v, rfl⟩)

theorem built_of_areWellFormed : ∀ vs : List Value, (∀ v ∈ vs, v.isWellFormed = true) → ∀ v ∈ vs, Built v
  | [], _ => List.forall_mem_nil _
  | v :: vs, h => by
    obtain ⟨h1, h2⟩ := List.forall_mem_cons.1 h
    exact List.forall_mem_cons.2 ⟨built_of_isWellFormed v h1, built_of_areWellFormed vs h2⟩
end

/-- **Values are well-formed by construction**, and nothing that is well-formed is out of reach. A value that is built
for a type, from plain data or from children, is of exactly that type. -/
theorem built_iff_isWellFormed :
    (∀ v, Built v ↔ v.isWellFormed = true) ∧
      ∀ (t : Ty) (p : Plain), t.Constructed → (∀ w ∈ p.values, Built w) → ∀ v,
        ofPlain t p = .ok v ∨ ofParts t p = .ok v → v.ty = t := by
  refine ⟨fun v => ⟨isWellFormed_of_built, built_of_isWellFormed v⟩, fun t p ht hp v h => ?_⟩
  have hformed := Ty.isFormed_of_constructed ht
  have hvalues : ∀ w ∈ p.values, w.isWellFormed = true := fun w hw => isWellFormed_of_built (hp w hw)
  rcases h with h | h
  · exact (conforms_of_ofPlain hformed hvalues h).ty
  · exact (conforms_of_ofParts hformed hvalues h).ty

/-- A mapping whose values go into variants: one of them is a value already, the other is a string of bytes. -/
theorem built_iff_isWellFormed_mapping :
    let t : Ty := .array (.entry (.text .string) .variant)
    let p : Plain :=
      .mapping [(.text [97], .typed (.scalar (.int .int16 (-2)))), (.text [98], .bytes .mutable [200])]
    let v : Value := .array (.entry (.text .string) .variant)
      [.entry (.text .string "a") (.variant (.scalar (.int .int16 (-2)))),
        .entry (.text .string "b") (.variant (.array .byte [.scalar (.int .byte 200)]))]
    t.Constructed ∧ (∀ w ∈ p.values, Built w) ∧ ofPlain t p = .ok v ∧ v.ty = t ∧ v.isWellFormed = true := by
  intro t p v
  obtain ⟨hiff, hty⟩ := built_iff_isWellFormed
  have ht : t.Constructed := Ty.constructed_of_isFormed t rfl
  have hp : ∀ w ∈ p.values, Built w := List.forall_mem_singleton.2 ((hiff _).2 rfl)
  have hv : ofPlain t p = .ok v := by rfl
  exact ⟨ht, hp, hv, hty t p ht hp v (.inl hv), (hiff v).1 (.ofPlain ht hp hv)⟩

end Value

end Marshal
