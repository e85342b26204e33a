import Marshal.Proofs.Gvariant.Extent
/-!
# What GVariant refuses

The encoder refuses a value that nests too deep, and one in which a number or a text does not fit. Nothing else can be
wrong with a value of less than 2^64 bytes (`refusal_of_cells`): offsets are as wide as the container needs them, and
every container in a value is at most as large as the value.
-/
namespace Marshal.Gvariant

open Cell Framing

variable {c : Codec} {room : Nat} {v : Value} {vs : List Value} {e : Error}

/-- What a value can be refused for, with room for a number of levels. -/
inductive Refusal (c : Codec) (room : Nat) (v : Value) : Error → Prop
  | tooDeep (h : room ≤ v.depth) : Refusal c room v (.valueTooDeep c.maxDepth)
  | mismatch {e : Error} (h : e.kind = .mismatch) : Refusal c room v e
  | tooLarge (h : 2 ^ 64 ≤ size v) : Refusal c room v .offsetTooLarge

/-- What a part is refused for the whole is. -/
theorem Refusal.mono {w : Value} (h : Refusal c room w e) (hd : w.depth < v.depth) (hsize : size w ≤ size v) :
    Refusal c (room + 1) v e := by
  cases h with
  | tooDeep h => exact .tooDeep (by omega)
  | mismatch h => exact .mismatch h
  | tooLarge h => exact .tooLarge (h.trans hsize)

theorem kind_of_scalarBytes {o : ByteOrder} {s : Scalar} (h : scalarBytes o s = .error e) : e.kind = .mismatch := by
  cases s with
  | int k n => exact kind_of_intBytes h
  | boolean b => exact kind_of_intBytes h
  | double bits => cases h
  | text k s =>
    cases k with
    | string | objectPath => exact kind_of_charsBytes h
    | signature => exact kind_of_signatureBytes h

/-- Children that cannot be laid out are refused, or they are too large together. -/
theorem exists_of_memberCells_error (h : memberCells (cells c room) vs = .error e) :
    (∃ w ∈ vs, cells c room w = .error e) ∨
      e = .offsetTooLarge ∧ 2 ^ 64 ≤ membersSize (Value.tys vs) (sizes vs) := by
  rcases except_bind_eq_error.1 h with h | ⟨blocks, hb, h⟩
  · obtain ⟨ch, hch, h⟩ := exists_of_blocksOf_error h
    obtain ⟨w, hw, rfl⟩ := List.mem_map.1 hch
    exact .inl ⟨w, hw, h⟩
  · refine .inr ⟨tupleCells_eq_error h, ?_⟩
    rw [membersSize, ← map_extent_of_laidOut length_eq_size hb]
    exact le_tupleSize_of_error (fits_of_laidOut hb) h

theorem exists_of_elementCells_error {t : Ty} (h : elementCells (cells c room) t vs = .error e) :
    (∃ w ∈ vs, cells c room w = .error e) ∨
      e = .offsetTooLarge ∧ 2 ^ 64 ≤ collectionSize (Layout.ofTy t) (sizes vs) := by
  rcases except_bind_eq_error.1 h with h | ⟨blocks, hb, h⟩
  · obtain ⟨ch, hch, h⟩ := exists_of_blocksOf_error h
    obtain ⟨w, hw, rfl⟩ := List.mem_map.1 hch
    exact .inl ⟨w, hw, h⟩
  · refine .inr ⟨withTable_eq_error h, ?_⟩
    rw [← map_length_of_elements length_eq_size hb]
    exact le_collectionSize_of_error (fst_of_elements hb) h

/-- **The encoder has no other reasons to refuse a value.** -/
theorem refusal_of_cells : ∀ {room : Nat} {v : Value} {e : Error}, cells c room v = .error e → Refusal c room v e
  | 0, v, e, h => by
    cases h
    exact .tooDeep (Nat.zero_le _)
  | room + 1, v, e, h => by
    cases v with
    | scalar s => exact .mismatch (kind_of_scalarBytes (except_map_eq_error.1 h))
    | array t items =>
      rcases exists_of_elementCells_error h with ⟨w, hw, h⟩ | ⟨rfl, hlarge⟩
      · exact (refusal_of_cells h).mono (Value.depth_lt_depths hw) (size_le_collectionSize _ hw)
      · exact .tooLarge hlarge
    | struct members =>
      rcases exists_of_memberCells_error h with ⟨w, hw, h⟩ | ⟨rfl, hlarge⟩
      · exact (refusal_of_cells h).mono (Value.depth_lt_depths hw) (size_le_membersSize hw)
      · exact .tooLarge hlarge
    | entry k w =>
      have h : memberCells (cells c room) [.scalar k, w] = .error e := h
      rcases exists_of_memberCells_error h with ⟨u, hu, hcells⟩ | ⟨rfl, hlarge⟩
      · refine (refusal_of_cells hcells).mono ?_ (size_le_membersSize hu)
        rcases List.mem_pair.1 hu with rfl | rfl
        · exact Nat.succ_pos _
        · exact Nat.lt_succ_self _
      · exact .tooLarge hlarge
    | variant w =>
      exact (refusal_of_cells (except_map_eq_error.1 h)).mono (Nat.lt_succ_self _) (Nat.le_add_right _ _)
    | nothing t => cases h
    | just w => exact (refusal_of_cells (except_map_eq_error.1 h)).mono (Nat.lt_succ_self _) (Nat.le_add_right _ _)

/-- There is room for every level of a value that is written. -/
theorem depth_lt_of_cells : ∀ {room : Nat} {v : Value} {cs : List Cell}, cells c room v = .ok cs → v.depth < room
  | room + 1, v, cs, h => by
    have hmembers {vs : List Value} (h : memberCells (cells c room) vs = .ok cs) : ∀ w ∈ vs, w.depth < room := by
      obtain ⟨blocks, hb, -⟩ := except_bind_eq_ok.1 h
      intro w hw
      obtain ⟨ds, hds⟩ := exists_of_mem_blocksOf hb (List.mem_map_of_mem hw)
      exact depth_lt_of_cells hds
    cases v with
    | scalar s | nothing t => exact Nat.succ_pos _
    | array t items =>
      obtain ⟨blocks, hb, -⟩ := except_bind_eq_ok.1 h
      refine Nat.lt_succ_of_le (Value.depths_le_iff.2 fun w hw => ?_)
      obtain ⟨ds, hds⟩ := exists_of_mem_blocksOf hb (List.mem_map_of_mem hw)
      exact depth_lt_of_cells hds
    | struct members => exact Nat.lt_succ_of_le (Value.depths_le_iff.2 (hmembers h))
    | entry k w =>
      have h : memberCells (cells c room) [.scalar k, w] = .ok cs := h
      exact Nat.succ_lt_succ (hmembers h w (List.mem_pair.2 (.inr rfl)))
    | variant w | just w =>
      obtain ⟨ds, hw, rfl⟩ := except_map_eq_ok.1 h
      exact Nat.succ_lt_succ (depth_lt_of_cells hw)

end Marshal.Gvariant
