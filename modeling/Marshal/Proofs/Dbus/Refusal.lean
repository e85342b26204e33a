import Marshal.Proofs.Dbus.Extent
/-!
# What D-Bus refuses

The encoder refuses a value for a few reasons, and each can be seen in the value, without encoding anything: it nests
too deep, an array in it is too long, it shows a maybe type, or a number or a text in it does not fit (`Refusal`). That
there is no other reason is `refusal_of_cells`. D-Bus has no maybe types, and the encoder refuses one where it comes to
a value of that type or to an array of such values (`Value.showsMaybe`).
-/
namespace Marshal

def Ty.isMaybe : Ty → Bool
  | .maybe _ => true
  | _ => false

namespace Value

mutual
/-- Whether a value or a part of it, at any level and also in variants, is of a maybe type or an array of such. -/
def showsMaybe : Value → Bool
  | .scalar _ => false
  | .array t vs => t.isMaybe || showMaybe vs
  | .struct vs => showMaybe vs
  | .entry _ v | .variant v => showsMaybe v
  | .nothing _ | .just _ => true

def showMaybe : List Value → Bool
  | [] => false
  | v :: vs => showsMaybe v || showMaybe vs
end

theorem showMaybe_eq_false_iff {vs : List Value} : showMaybe vs = false ↔ ∀ v ∈ vs, v.showsMaybe = false := by
  induction vs with
  | nil => simp [showMaybe]
  | cons v vs ih => simp [showMaybe, ih]

theorem showMaybe_of_mem {v : Value} {vs : List Value} (hv : v ∈ vs) (h : v.showsMaybe = true) :
    showMaybe vs = true := by
  by_contra hvs
  have := showMaybe_eq_false_iff.1 (Bool.eq_false_iff.2 hvs) v hv
  rw [h] at this
  cases this

theorem showsMaybe_of_isMaybe {v : Value} (h : v.ty.isMaybe = true) : v.showsMaybe = true := by
  cases v with
  | nothing _ | just _ => rfl
  | scalar _ | array _ _ | struct _ | entry _ _ | variant _ => cases h

end Value

namespace Dbus

open Cell

variable {c : Codec} {room p : Nat} {v : Value} {e : Error}

theorem alignment_eq_ok_iff {t : Ty} : (∃ a, alignment t = .ok a) ↔ t.isMaybe = false := by
  cases t <;> simp [alignment, Ty.dbusAlignment?, Ty.isMaybe]

theorem alignment_eq_error_iff {t : Ty} {e : Error} :
    alignment t = .error e ↔ e = .maybeUnsupported ∧ t.isMaybe = true := by
  cases t <;> simp [alignment, Ty.dbusAlignment?, Ty.isMaybe, eq_comm]

/-- What a value that comes after a position can be refused for, with room for a number of levels. -/
inductive Refusal (c : Codec) (room p : Nat) (v : Value) : Error → Prop
  | tooDeep (h : room ≤ v.depth) : Refusal c room p v (.valueTooDeep c.maxDepth)
  | mismatch {e : Error} (h : e.kind = .mismatch) : Refusal c room p v e
  | maybe (h : v.showsMaybe = true) : Refusal c room p v .maybeUnsupported
  | tooLong {n : Nat} (hn : n ∈ arrayLengths p v) (h : c.maxArrayLength < n) :
    Refusal c room p v (.arrayTooLong n c.maxArrayLength)
  /-- The limit allows for an array that no length can tell. -/
  | overflow {n : Nat} (hn : n ∈ arrayLengths p v) (h : (n : Int) ≤ c.maxArrayLength) (hlarge : 2 ^ 32 ≤ n) :
    Refusal c room p v .offsetTooLarge

/-- What a part is refused for the whole is. -/
theorem Refusal.mono {q : Nat} {w : Value} (h : Refusal c room q w e) (hd : w.depth < v.depth)
    (hs : w.showsMaybe = true → v.showsMaybe = true) (hsub : arrayLengths q w ⊆ arrayLengths p v) :
    Refusal c (room + 1) p v e := by
  cases h with
  | tooDeep h => exact .tooDeep (by omega)
  | mismatch h => exact .mismatch h
  | maybe h => exact .maybe (hs h)
  | tooLong hn h => exact .tooLong (hsub hn) h
  | overflow hn h hlarge => exact .overflow (hsub hn) h hlarge

theorem kind_of_scalarBytes {o : ByteOrder} {s : Scalar} (h : scalarBytes o s = .error e) : e.kind = .mismatch := by
  cases s with
  | int k n => exact kind_of_intBytes h
  | boolean b => exact kind_of_intBytes h
  | double bits => cases h
  | text k s =>
    cases k with
    | string | objectPath => exact kind_of_charsBytes h
    | signature =>
      rw [scalarBytes] at h
      split at h
      · exact kind_of_signatureBytes h
      · cases h
        rfl

theorem lengthOf_eq_error {n : Nat} (h : lengthOf c n = .error e) :
    c.maxArrayLength < n ∧ e = .arrayTooLong n c.maxArrayLength ∨
      (n : Int) ≤ c.maxArrayLength ∧ 2 ^ 32 ≤ n ∧ e = .offsetTooLarge := by
  unfold lengthOf at h
  split at h
  · rename_i hlt
    cases h
    exact .inl ⟨hlt, rfl⟩
  rename_i hle
  split at h
  · cases h
  rename_i hnone
  cases h
  have hlarge : ¬ n < 256 ^ lengthWidth := mt Integer.fits_natCast_iff.2 (Integer.encode?_eq_none_iff.1 hnone)
  exact .inr ⟨not_lt.1 hle, not_lt.1 hlarge, rfl⟩

/-- Where parts that are written in turn fail, one of them does, where it comes to stand. -/
theorem exists_of_inTurn_cells_error : ∀ {vs : List Value} {q : Nat}, inTurn (cells c room) q vs = .error e →
    ∃ w ∈ vs, ∃ r, cells c room r w = .error e ∧ arrayLengths r w ⊆ arrayLengthsOf q vs
  | v :: vs, q, h => by
    rw [inTurn, follow_eq_error] at h
    rcases h with h | ⟨cs, hcs, h⟩
    · exact ⟨v, List.mem_cons_self, q, h, List.subset_append_left _ _⟩
    · rw [stop_of_cells hcs] at h
      obtain ⟨w, hw, r, h, hsub⟩ := exists_of_inTurn_cells_error h
      exact ⟨w, List.mem_cons_of_mem v hw, r, h, List.Subset.trans hsub (List.subset_append_right _ _)⟩

/-- **The encoder has no other reasons to refuse a value.** -/
theorem refusal_of_cells : ∀ {room p : Nat} {v : Value} {e : Error}, cells c room p v = .error e →
    Refusal c room p v e
  | 0, p, v, e, h => by
    cases h
    exact .tooDeep (Nat.zero_le _)
  | room + 1, p, v, e, h => by
    rcases except_bind_eq_error.1 h with h | ⟨a, ha, h⟩
    · obtain ⟨rfl, ht⟩ := alignment_eq_error_iff.1 h
      exact .maybe (Value.showsMaybe_of_isMaybe ht)
    rcases follow_eq_error.1 h with h | ⟨pad, hpad, h⟩
    · cases h
    cases hpad
    rw [length_blank, start_of_alignment ha] at h
    have hitems {vs : List Value} {q : Nat} (h : inTurn (cells c room) q vs = .error e)
        (hd : ∀ w ∈ vs, w.depth < v.depth) (hs : Value.showMaybe vs = true → v.showsMaybe = true)
        (hsub : arrayLengthsOf q vs ⊆ arrayLengths p v) : Refusal c (room + 1) p v e := by
      obtain ⟨w, hw, r, h, hr⟩ := exists_of_inTurn_cells_error h
      exact (refusal_of_cells h).mono (hd w hw) (fun h => hs (Value.showMaybe_of_mem hw h)) (List.Subset.trans hr hsub)
    cases v with
    | scalar s => exact .mismatch (kind_of_scalarBytes (except_map_eq_error.1 h))
    | array t items =>
      rcases except_bind_eq_error.1 h with h | ⟨b, hb, h⟩
      · obtain ⟨rfl, ht⟩ := alignment_eq_error_iff.1 h
        exact .maybe (Bool.or_eq_true_iff.2 (.inl ht))
      simp only [start_of_alignment hb] at h
      rcases except_bind_eq_error.1 h with h | ⟨elements, helements, h⟩
      · exact hitems h (fun w hw => Value.depth_lt_depths hw) (fun hs => Bool.or_eq_true_iff.2 (.inr hs))
          (List.subset_cons_self _ _)
      rcases except_bind_eq_error.1 h with h | ⟨length, -, h⟩
      · have hlen : elements.length ∈ arrayLengths p (.array t items) := by
          have hstop := stops_of_inTurn (fun h => stop_of_cells h) helements
          rw [arrayLengths, elementsStart, ← Value.ty, ← hstop, Nat.add_sub_cancel_left]
          exact List.mem_cons_self
        rcases lengthOf_eq_error h with ⟨hlt, rfl⟩ | ⟨hle, hlarge, rfl⟩
        · exact .tooLong hlen hlt
        · exact .overflow hlen hle hlarge
      · cases h
    | struct members =>
      exact hitems h (fun w hw => Value.depth_lt_depths hw) id (List.Subset.refl _)
    | entry k w =>
      rw [contentCells, follow_eq_error] at h
      rcases h with h | ⟨cs, hcs, h⟩
      · exact (refusal_of_cells h).mono (Nat.succ_pos _) (absurd · Bool.false_ne_true) (List.nil_subset _)
      · rw [stop_of_cells hcs] at h
        exact (refusal_of_cells h).mono (v := .entry k w) (Nat.lt_succ_self _) id (List.Subset.refl _)
    | variant w =>
      rw [contentCells, follow_eq_error] at h
      rcases h with h | ⟨cs, hcs, h⟩
      · have hsignature := except_map_eq_error.1 h
        rw [← Ty.ofString_signatureString] at hsignature
        exact .mismatch (kind_of_signatureBytes hsignature)
      · obtain ⟨text, htext, rfl⟩ := except_map_eq_ok.1 hcs
        rw [length_given, length_signatureBytes htext] at h
        exact (refusal_of_cells h).mono (v := .variant w) (Nat.lt_succ_self _) id (List.Subset.refl _)
    | nothing t | just w =>
      cases h
      exact .maybe rfl

/-! ## What it accepts -/

/-- The encoder comes to every part of a value that it writes. -/
theorem showsMaybe_of_cells : ∀ {room p : Nat} {v : Value} {cs : List Cell}, cells c room p v = .ok cs →
    v.showsMaybe = false
  | room + 1, p, v, cs, h => by
    obtain ⟨_, body, -, hb, rfl⟩ := cells_eq_ok.1 h
    have hitems {vs : List Value} {q : Nat} {cs : List Cell} (h : inTurn (cells c room) q vs = .ok cs) :
        Value.showMaybe vs = false := by
      refine Value.showMaybe_eq_false_iff.2 fun w hw => ?_
      obtain ⟨q, ds, h⟩ := exists_of_mem_inTurn h hw
      exact showsMaybe_of_cells h
    cases v with
    | scalar s => rfl
    | array t items =>
      obtain ⟨a, elements, _, ha, helements, -⟩ := arrayCells_eq_ok.1 hb
      exact Bool.or_eq_false_iff.2 ⟨alignment_eq_ok_iff.1 ⟨a, ha⟩, hitems helements⟩
    | struct members => exact hitems hb
    | entry k w | variant w =>
      rw [contentCells, follow_eq_ok] at hb
      obtain ⟨_, _, -, hw, -⟩ := hb
      exact showsMaybe_of_cells (v := w) hw
    | nothing t | just w => cases hb

/-- There is room for every level of a value that is written. -/
theorem depth_lt_of_cells : ∀ {room p : Nat} {v : Value} {cs : List Cell}, cells c room p v = .ok cs → v.depth < room
  | room + 1, p, v, cs, h => by
    obtain ⟨_, body, -, hb, rfl⟩ := cells_eq_ok.1 h
    have hitems {vs : List Value} {q : Nat} {cs : List Cell} (h : inTurn (cells c room) q vs = .ok cs) :
        Value.depths vs < room + 1 := by
      refine Nat.lt_succ_of_le (Value.depths_le_iff.2 fun w hw => ?_)
      obtain ⟨q, ds, h⟩ := exists_of_mem_inTurn h hw
      exact depth_lt_of_cells h
    cases v with
    | scalar s => exact Nat.succ_pos _
    | array t items =>
      obtain ⟨_, elements, _, -, helements, -⟩ := arrayCells_eq_ok.1 hb
      exact hitems helements
    | struct members => exact hitems hb
    | entry k w | variant w =>
      rw [contentCells, follow_eq_ok] at hb
      obtain ⟨_, _, -, hw, -⟩ := hb
      exact Nat.succ_lt_succ (depth_lt_of_cells hw)
    | nothing t | just w => cases hb

end Dbus

end Marshal
