import Marshal.Proofs.Builders
/-!
# Values come back from their plain data

`Value.toPlain` forgets types, so `Value.ofPlain` is told the type and has to find, at every level, the branch that fits
the data: bytes for an array of bytes, a mapping for an array of dict entries, none for a maybe. What cannot be told
back is what a variant held, how many maybes stand around nothing, and entries of a mapping that replaced one another.
Every other value comes back (`ofPlain_ty_toPlain`).
-/
namespace Marshal

/-! ## What occurs in types and values -/

namespace Ty

mutual
/-- The types that occur in a type, itself included. -/
def parts : Ty → List Ty
  | .basic b => [.basic b]
  | .array t => .array t :: parts t
  | .struct ts => .struct ts :: partsAmong ts
  | .entry k t => .entry k t :: .basic k :: parts t
  | .variant => [.variant]
  | .maybe t => .maybe t :: parts t

def partsAmong : List Ty → List Ty
  | [] => []
  | t :: ts => parts t ++ partsAmong ts
end

theorem self_mem_parts (t : Ty) : t ∈ t.parts := by
  cases t <;> exact List.mem_cons_self

theorem parts_subset_partsAmong {t : Ty} {ts : List Ty} (h : t ∈ ts) : t.parts ⊆ partsAmong ts :=
  subset_of_mem_gathered (fun _ _ => by rw [partsAmong]) h

end Ty

namespace Value

mutual
/-- The values that stand in a value at any level, itself included. -/
def parts : Value → List Value
  | .scalar s => [.scalar s]
  | .array t vs => .array t vs :: partsAmong vs
  | .struct vs => .struct vs :: partsAmong vs
  | .entry k v => .entry k v :: .scalar k :: parts v
  | .variant v => .variant v :: parts v
  | .nothing t => [.nothing t]
  | .just v => .just v :: parts v

def partsAmong : List Value → List Value
  | [] => []
  | v :: vs => parts v ++ partsAmong vs
end

theorem self_mem_parts (v : Value) : v ∈ v.parts := by
  cases v <;> exact List.mem_cons_self

theorem parts_subset_partsAmong {v : Value} {vs : List Value} (h : v ∈ vs) : v.parts ⊆ partsAmong vs :=
  subset_of_mem_gathered (fun _ _ => by rw [partsAmong]) h

theorem parts_subset_of_mem_children {v w : Value} (h : w ∈ v.children) : w.parts ⊆ v.parts := by
  cases v with
  | scalar | nothing => cases h
  | array t vs | struct vs => exact List.Subset.trans (parts_subset_partsAmong h) (List.subset_cons_self _ _)
  | entry k v =>
    rw [parts]
    rcases List.mem_pair.1 h with rfl | rfl
    · exact List.cons_subset.2 ⟨List.mem_cons_of_mem _ List.mem_cons_self, List.nil_subset _⟩
    · exact List.Subset.trans (List.subset_cons_self _ _) (List.subset_cons_self _ _)
  | variant v | just v =>
    obtain rfl := List.mem_singleton.1 h
    exact List.subset_cons_self _ _

/-- Whether no array of dict entries, at any level, has two keys that are equal as keys of a mapping. Two keys that are
NaN differ: as `Plain.sameKey` has it, each is an object of its own, and the mapping keeps both. -/
def KeysDiffer (v : Value) : Prop :=
  ∀ k t vs, .array (.entry k t) vs ∈ v.parts → (toEntries vs).Pairwise fun d e => Plain.sameKey d.1 e.1 = false

end Value

/-! ## Mappings -/

namespace Plain

theorem insertEntry_of_forall {key value : Plain} : ∀ {es : List (Plain × Plain)}, (∀ e ∈ es, sameKey e.1 key = false) →
    insertEntry key value es = es ++ [(key, value)]
  | [], _ => rfl
  | (k, v) :: es, h => by
    obtain ⟨hk, hes⟩ := List.forall_mem_cons.1 h
    rw [insertEntry, if_neg (by simp [hk]), insertEntry_of_forall hes]
    rfl

theorem foldl_insertEntry : ∀ {es ds : List (Plain × Plain)}, (ds ++ es).Pairwise (fun d e => sameKey d.1 e.1 = false) →
    es.foldl (fun m e => insertEntry e.1 e.2 m) ds = ds ++ es
  | [], ds, _ => (List.append_nil ds).symm
  | e :: es, ds, h => by
    have hd : ∀ d ∈ ds, sameKey d.1 e.1 = false := fun d hd =>
      (List.pairwise_append.1 h).2.2 d hd e List.mem_cons_self
    rw [List.append_cons] at h
    rw [List.foldl_cons, insertEntry_of_forall hd, foldl_insertEntry h, ← List.append_cons]

/-- Entries whose keys differ are a mapping as they stand. -/
theorem ofEntries_of_pairwise {es : List (Plain × Plain)} (h : es.Pairwise fun d e => sameKey d.1 e.1 = false) :
    ofEntries es = es := by
  rw [← List.nil_append es] at h
  exact foldl_insertEntry h

end Plain

namespace Value

/-! ## What the data shows -/

theorem toPlains_eq_map (vs : List Value) : toPlains vs = vs.map toPlain := by
  induction vs with
  | nil => rfl
  | cons v vs ih => rw [toPlains, ih, List.map_cons]

/-- The data of an array, of which the type of the elements decides the form. -/
theorem toPlain_bytes (vs : List Value) : (Value.array .byte vs).toPlain = .bytes .constant (vs.map toByte) := by
  rw [toPlain, if_pos rfl]

theorem toPlain_ne_typed (w : Value) : ∀ v : Value, v.toPlain ≠ .typed w
  | .scalar s, h => by cases s <;> cases h
  | .array t vs, h => by
    rw [toPlain] at h
    split_ifs at h
  | .struct _, h | .entry _ _, h | .nothing _, h => nomatch h
  | .variant v, h | .just v, h => toPlain_ne_typed w v h

/-- Only a maybe, or a variant that could hold one, shows as none. -/
theorem toPlain_ne_none : ∀ {v : Value}, v.ty ≠ .variant → (∀ t, v.ty ≠ .maybe t) → v.toPlain ≠ .none
  | .scalar s, _, _, h => by cases s <;> cases h
  | .array t vs, _, _, h => by
    rw [toPlain] at h
    split_ifs at h
  | .struct _, _, _, h | .entry _ _, _, _, h => nomatch h
  | .variant _, hv, _, _ => hv rfl
  | .nothing t, _, hm, _ => hm t rfl
  | .just v, _, hm, _ => hm v.ty rfl

theorem typedOr_toPlain (t : Ty) (v : Value) (wraps : Bool) (build : Except Error Value) :
    typedOr t v.toPlain wraps build = build := by
  unfold typedOr
  split
  · rename_i w hw
    exact absurd hw (toPlain_ne_typed w v)
  · rfl

theorem keyOfPlain_toPlain {k : Scalar} (h : k.isWellFormed = true) : keyOfPlain k.basic k.toPlain = .ok k := by
  have hk := Scalar.ofPlain_toPlain h
  cases k <;> exact hk

/-- A byte is in range, so it is the one that its data shows. -/
theorem ofByte_toByte : ∀ {v : Value}, v.Conforms .byte → ofByte v.toByte = v
  | .scalar (.int k n), h => by
    obtain rfl : k = .byte := Basic.int.inj (Ty.basic.inj h.ty)
    have hfits : Integer.Fits 1 false n := of_decide_eq_true h.isWellFormed
    obtain ⟨m, rfl⟩ := Int.eq_ofNat_of_zero_le hfits.1
    have hm : m < 256 := Integer.fits_natCast_iff.1 hfits
    rw [toByte, ofByte, Int.toNat_natCast, UInt8.toNat_ofNat_of_lt' hm]
  | .scalar (.boolean _), h | .scalar (.double _), h | .scalar (.text _ _), h | .array _ _, h | .struct _, h
  | .entry _ _, h | .variant _, h | .nothing _, h | .just _, h => nomatch h.ty

/-! ## Coming back -/

/-- What a value has to be to come back from its data. -/
structure Recoverable (v : Value) : Prop where
  wellFormed : v.isWellFormed = true
  variant : .variant ∉ v.ty.parts
  maybe (t : Ty) : .maybe (.maybe t) ∉ v.ty.parts
  keys : v.KeysDiffer

/-- The types that occur in a child's type occur in that of its container, unless that is a variant. -/
theorem parts_ty_subset {v w : Value} (hv : v.isTyped = true) (hvariant : v.ty ≠ .variant) (h : w ∈ v.children) :
    w.ty.parts ⊆ v.ty.parts := by
  cases v with
  | scalar | nothing => cases h
  | array t vs =>
    rw [isTyped, haveType_iff] at hv
    obtain ⟨-, rfl⟩ := hv w h
    exact List.subset_cons_self _ _
  | struct vs =>
    rw [ty, tys_eq_map, Ty.parts]
    exact List.Subset.trans (Ty.parts_subset_partsAmong (List.mem_map_of_mem h)) (List.subset_cons_self _ _)
  | entry k v =>
    rw [ty, Ty.parts]
    rcases List.mem_pair.1 h with rfl | rfl
    · exact List.cons_subset.2 ⟨List.mem_cons_of_mem _ List.mem_cons_self, List.nil_subset _⟩
    · exact List.Subset.trans (List.subset_cons_self _ _) (List.subset_cons_self _ _)
  | variant v => exact absurd rfl hvariant
  | just v =>
    obtain rfl := List.mem_singleton.1 h
    exact List.subset_cons_self _ _

theorem isWellFormed_of_mem_children {v w : Value} (hv : v.isWellFormed = true) (h : w ∈ v.children) :
    w.isWellFormed = true := by
  cases v with
  | scalar | nothing => cases h
  | array t vs =>
    rw [isWellFormed, Bool.and_eq_true, areOf_iff] at hv
    exact (hv.2 w h).1
  | struct vs =>
    rw [isWellFormed, Bool.and_eq_true, areWellFormed_iff] at hv
    exact hv.2 w h
  | entry k v =>
    rw [isWellFormed, Bool.and_eq_true, Bool.and_eq_true] at hv
    rcases List.mem_pair.1 h with rfl | rfl
    · exact hv.1.2
    · exact hv.2
  | variant v | just v =>
    rw [isWellFormed, Bool.and_eq_true] at hv
    obtain rfl := List.mem_singleton.1 h
    exact hv.2

theorem Recoverable.child {v w : Value} (h : v.Recoverable) (hw : w ∈ v.children) : w.Recoverable := by
  have hvariant : v.ty ≠ .variant := fun hty => h.variant (hty ▸ v.ty.self_mem_parts)
  have hparts := parts_ty_subset (isTyped_of_isWellFormed v h.wellFormed) hvariant hw
  exact ⟨isWellFormed_of_mem_children h.wellFormed hw, fun hmem => h.variant (hparts hmem),
    fun t hmem => h.maybe t (hparts hmem), fun k t vs hmem => h.keys k t vs (parts_subset_of_mem_children hw hmem)⟩

/-- A mapping is walked as the pairs that its entries show as. -/
theorem map_toEntries {k : Basic} {t : Ty} : ∀ {vs : List Value}, (∀ v ∈ vs, v.ty = .entry k t) →
    (toEntries vs).map (fun e => Plain.sequence .tuple [e.1, e.2]) = vs.map toPlain
  | [], _ => rfl
  | .entry l w :: vs, h => by
    rw [toEntries, List.map_cons, List.map_cons, map_toEntries (List.forall_mem_cons.1 h).2, toPlain]
  | .scalar _ :: _, h | .array _ _ :: _, h | .struct _ :: _, h | .variant _ :: _, h | .nothing _ :: _, h
  | .just _ :: _, h => nomatch h _ List.mem_cons_self

/-- An array that is not of bytes is walked item by item, whatever form its data has. -/
theorem arrayItems_toPlain {t : Ty} {vs : List Value} (h : (Value.array t vs).Recoverable) (hbyte : t ≠ .byte) :
    arrayItems t (Value.array t vs).toPlain = .ok (vs.map toPlain) := by
  have hwf := h.wellFormed
  rw [isWellFormed, Bool.and_eq_true, areOf_iff] at hwf
  rw [toPlain, if_neg hbyte]
  cases t with
  | entry k t =>
    have hkeys := h.keys k t vs (self_mem_parts _)
    rw [Ty.isEntry, if_pos rfl, Plain.ofEntries_of_pairwise hkeys, ← map_toEntries fun v hv => (hwf.2 v hv).2]
    rfl
  | _ =>
    rw [← toPlains_eq_map]
    rfl

/-- An array comes back if its elements do. -/
theorem ofPlain_array {t : Ty} {vs : List Value} (h : (Value.array t vs).Recoverable)
    (ih : ∀ v ∈ vs, ofPlain v.ty v.toPlain = .ok v) :
    ofPlain (.array t) (Value.array t vs).toPlain = .ok (.array t vs) := by
  have hwf := h.wellFormed
  rw [isWellFormed, Bool.and_eq_true, areOf_iff] at hwf
  unfold ofPlain
  rw [typedOr_toPlain]
  by_cases hbyte : t = .byte
  · subst hbyte
    have hbytes : (vs.map toByte).map ofByte = vs := by
      rw [List.map_map]
      exact (List.map_congr_left fun v hv => ofByte_toByte ⟨(hwf.2 v hv).2, (hwf.2 v hv).1⟩).trans (List.map_id vs)
    rw [toPlain_bytes]
    exact congrArg (fun vs => Except.ok (Value.array .byte vs)) hbytes
  · have hitems : (vs.map toPlain).mapM (ofPlain t) = .ok vs := by
      refine mapM_eq_ok_iff.2 (List.forall₂_map_left_iff.2 (List.forall₂_same.2 fun v hv => ?_))
      exact (hwf.2 v hv).2 ▸ ih v hv
    split
    · exact absurd rfl hbyte
    · exact except_bind_eq_ok.2 ⟨_, arrayItems_toPlain h hbyte, except_bind_eq_ok.2 ⟨vs, hitems, rfl⟩⟩

/-- Members come back one by one. -/
theorem ofPlains_of_forall : ∀ {vs : List Value}, (∀ v ∈ vs, ofPlain v.ty v.toPlain = .ok v) →
    ofPlains (tys vs) (toPlains vs) = .ok vs
  | [], _ => rfl
  | v :: vs, h => by
    obtain ⟨hv, hvs⟩ := List.forall_mem_cons.1 h
    rw [tys, toPlains, ofPlains]
    exact except_bind_eq_ok.2 ⟨v, hv, except_bind_eq_ok.2 ⟨vs, ofPlains_of_forall hvs, rfl⟩⟩

mutual
/-- The induction on the value: each container finds its children in its data. -/
theorem ofPlain_of_recoverable : ∀ v : Value, v.Recoverable → ofPlain v.ty v.toPlain = .ok v
  | .scalar s, h => by
    rw [ty, ofPlain, typedOr_toPlain]
    exact except_bind_eq_ok.2 ⟨s, Scalar.ofPlain_toPlain h.wellFormed, rfl⟩
  | .array t vs, h => ofPlain_array h (ofPlain_of_forall vs fun _ hv => h.child hv)
  | .struct vs, h => by
    have hmembers : membersFor (tys vs) (Value.struct vs).toPlain = .ok (toPlains vs) :=
      membersFor_eq_ok.2 ⟨rfl, by rw [toPlains_eq_map, tys_eq_map, List.length_map, List.length_map]⟩
    rw [ty, ofPlain, typedOr_toPlain]
    exact except_bind_eq_ok.2 ⟨_, hmembers,
      except_bind_eq_ok.2 ⟨vs, ofPlains_of_forall (ofPlain_of_forall vs fun _ hv => h.child hv), rfl⟩⟩
  | .entry k v, h => by
    have hk : k.isWellFormed = true := (h.child List.mem_cons_self).wellFormed
    have hv := ofPlain_of_recoverable v (h.child (List.mem_cons_of_mem _ List.mem_cons_self))
    have hpair : pairFor (.entry k.basic v.ty) (Value.entry k v).toPlain = .ok (k.toPlain, v.toPlain) :=
      pairFor_eq_ok.2 rfl
    rw [ty, ofPlain, typedOr_toPlain]
    exact except_bind_eq_ok.2 ⟨_, hpair, except_bind_eq_ok.2 ⟨k, keyOfPlain_toPlain hk,
      except_bind_eq_ok.2 ⟨v, hv, rfl⟩⟩⟩
  | .variant v, h => absurd (Ty.self_mem_parts _) h.variant
  | .nothing t, _ => by
    unfold ofPlain
    exact typedOr_toPlain _ (.nothing t) _ _
  | .just v, h => by
    have hcontent := h.child List.mem_cons_self
    have hv := ofPlain_of_recoverable v hcontent
    have hnone : v.toPlain ≠ .none := by
      refine toPlain_ne_none (fun hty => ?_) fun t hty => ?_
      · exact hcontent.variant (hty ▸ v.ty.self_mem_parts)
      · exact h.maybe t (by rw [ty, hty]; exact Ty.self_mem_parts _)
    unfold ofPlain
    refine (typedOr_toPlain _ (.just v) _ _).trans ?_
    split
    · rename_i hp
      exact absurd hp hnone
    · exact except_bind_eq_ok.2 ⟨v, hv, rfl⟩

theorem ofPlain_of_forall : ∀ vs : List Value, (∀ v ∈ vs, v.Recoverable) → ∀ v ∈ vs, ofPlain v.ty v.toPlain = .ok v
  | [], _ => List.forall_mem_nil _
  | v :: vs, h => by
    obtain ⟨hv, hvs⟩ := List.forall_mem_cons.1 h
    exact List.forall_mem_cons.2 ⟨ofPlain_of_recoverable v hv, ofPlain_of_forall vs hvs⟩
end

/-- **Values come back from their plain data**: all that are well-formed, with no variant and no maybe directly inside a
maybe in their type, and with no two equal keys in an array of dict entries. Doubles come back bit by bit. -/
theorem ofPlain_ty_toPlain {v : Value} (hv : v.isWellFormed = true) (hvariant : .variant ∉ v.ty.parts)
    (hmaybe : ∀ t, .maybe (.maybe t) ∉ v.ty.parts) (hkeys : v.KeysDiffer) : ofPlain v.ty v.toPlain = .ok v :=
  ofPlain_of_recoverable v ⟨hv, hvariant, hmaybe, hkeys⟩

/-- Bytes that are none, a mapping with a maybe that holds nothing and one that holds no bytes, and a maybe around a
mapping without entries. -/
theorem ofPlain_ty_toPlain_empty :
    let v : Value := .struct [.array .byte [],
      .array (.entry (.text .string) (.maybe (.array .byte)))
        [.entry (.text .string "a") (.nothing (.array .byte)), .entry (.text .string "b") (.just (.array .byte []))],
      .just (.array (.entry (.int .int16) (.basic .double)) [])]
    let p : Plain := .sequence .tuple [.bytes .constant [],
      .mapping [(.text [97], .none), (.text [98], .bytes .constant [])], .mapping []]
    v.isWellFormed = true ∧ .variant ∉ v.ty.parts ∧ (∀ t, .maybe (.maybe t) ∉ v.ty.parts) ∧ v.KeysDiffer ∧
      v.toPlain = p ∧ ofPlain v.ty p = .ok v := by
  intro v p
  have hv : v.isWellFormed = true := by decide
  have hvariant : .variant ∉ v.ty.parts := by decide
  have hmaybe : ∀ t, .maybe (.maybe t) ∉ v.ty.parts := by
    simp [v, ty, tys, Ty.parts, Ty.partsAmong]
  have hkeys : v.KeysDiffer := by
    intro k t vs h
    have h : (k = .text .string ∧ t = .maybe (.array .byte)) ∧
          vs = [.entry (.text .string "a") (.nothing (.array .byte)),
            .entry (.text .string "b") (.just (.array .byte []))] ∨
        (k = .int .int16 ∧ t = .basic .double) ∧ vs = [] := by
      simpa [v, parts, partsAmong] using h
    rcases h with ⟨-, rfl⟩ | ⟨-, rfl⟩
    · decide
    · exact .nil
  have hp : v.toPlain = p := by
    simp only [v, p]
    rfl
  exact ⟨hv, hvariant, hmaybe, hkeys, hp, hp ▸ ofPlain_ty_toPlain hv hvariant hmaybe hkeys⟩

end Value

end Marshal
