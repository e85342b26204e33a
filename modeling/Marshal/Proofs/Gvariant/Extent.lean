import Marshal.Proofs.Framing.Extent
import Marshal.Proofs.Gvariant.Layout
/-!
# How large a GVariant value is

The size of a value follows from the sizes of its parts, and nothing has to be written to know it: `size` counts the
padding, the tables of offsets and what ends a variant or a maybe as well. What is written for a value has this size
(`length_eq_size`).
-/
namespace Marshal.Gvariant

open Cell Framing

/-- The size of a struct or dict entry with members of given types and sizes. -/
def membersSize (ts : List Ty) (sizes : List Nat) : Nat :=
  tupleSize (Ty.gvariantAlignments ts) ((ts.map Layout.ofTy).zip sizes)

mutual
/-- The number of bytes of a value, from its own alignment on. -/
def size : Value → Nat
  | .scalar s => scalarSize s
  | .array t vs => collectionSize (Layout.ofTy t) (sizes vs)
  | .struct vs => membersSize (Value.tys vs) (sizes vs)
  | .entry k w => membersSize [.basic k.basic, w.ty] [scalarSize k, size w]
  | .variant w => size w + (1 + w.ty.signature.length)
  | .nothing _ => 0
  | .just w => size w + (justEnd w.ty).length

def sizes : List Value → List Nat
  | [] => []
  | v :: vs => size v :: sizes vs
end

theorem sizes_eq_map : ∀ vs : List Value, sizes vs = vs.map size
  | [] => rfl
  | v :: vs => by rw [sizes, sizes_eq_map vs, List.map_cons]

theorem zip_sizes (vs : List Value) :
    ((Value.tys vs).map Layout.ofTy).zip (sizes vs) = vs.map fun v => (Layout.ofTy v.ty, size v) := by
  rw [sizes_eq_map, Value.tys_eq_map, List.map_map, List.zip_map']
  rfl

/-- No member is larger than the struct or dict entry that it is in. -/
theorem size_le_membersSize {w : Value} {vs : List Value} (h : w ∈ vs) :
    size w ≤ membersSize (Value.tys vs) (sizes vs) := by
  have hmem : (Layout.ofTy w.ty, size w) ∈ vs.map fun v => (Layout.ofTy v.ty, size v) := List.mem_map.2 ⟨w, h, rfl⟩
  rw [membersSize, zip_sizes]
  exact snd_le_tupleSize hmem

theorem size_le_collectionSize {w : Value} {vs : List Value} (l : Layout) (h : w ∈ vs) :
    size w ≤ collectionSize l (sizes vs) :=
  le_collectionSize (sizes_eq_map vs ▸ List.mem_map_of_mem h)

/-! ## What is written -/

variable {c : Codec} {room : Nat} {cs : List Cell} {vs : List Value} {blocks : List Block}

/-- Blocks are as large as the children that they are of. -/
theorem map_extent_of_blocksOf {f : Value → Except Error (List Cell)} {children : List (Layout × Value)}
    (hf : ∀ {v : Value} {cs : List Cell}, f v = .ok cs → cs.length = size v) (hb : blocksOf f children = .ok blocks) :
    blocks.map Block.extent = children.map fun ch => (ch.1, size ch.2) := by
  rw [blocksOf_eq_ok] at hb
  induction hb with
  | nil => rfl
  | @cons ch b children blocks h _ ih =>
    rw [List.map_cons, List.map_cons, ih, Block.extent, h.1, hf h.2]

theorem fits_of_laidOut (hb : blocksOf (cells c room) (laidOut vs) = .ok blocks) : ∀ b ∈ blocks, b.Fits := by
  refine fits_of_blocksOf hb fun ch hch n hn cs h => ?_
  obtain ⟨v, -, rfl⟩ := List.mem_map.1 hch
  exact length_cells c hn h

theorem fst_of_elements {f : Value → Except Error (List Cell)} {l : Layout}
    (hb : blocksOf f (vs.map (l, ·)) = .ok blocks) : ∀ b ∈ blocks, b.1 = l := by
  intro b hmem
  have hfst : b.1 ∈ (vs.map (l, ·)).map Prod.fst := map_fst_of_blocksOf hb ▸ List.mem_map_of_mem hmem
  rw [List.map_map] at hfst
  obtain ⟨v, -, rfl⟩ := List.mem_map.1 hfst
  rfl

section Containers

variable (hf : ∀ {v : Value} {cs : List Cell}, cells c room v = .ok cs → cs.length = size v)

include hf

theorem map_extent_of_laidOut (hb : blocksOf (cells c room) (laidOut vs) = .ok blocks) :
    blocks.map Block.extent = ((Value.tys vs).map Layout.ofTy).zip (sizes vs) := by
  rw [map_extent_of_blocksOf hf hb, zip_sizes, laidOut, List.map_map]
  rfl

theorem map_length_of_elements {l : Layout} (hb : blocksOf (cells c room) (vs.map (l, ·)) = .ok blocks) :
    blocks.map (·.2.length) = sizes vs := by
  have h := congrArg (List.map Prod.snd) (map_extent_of_blocksOf hf hb)
  rw [List.map_map, List.map_map, List.map_map] at h
  rw [sizes_eq_map]
  exact h

theorem length_of_memberCells (h : memberCells (cells c room) vs = .ok cs) :
    cs.length = membersSize (Value.tys vs) (sizes vs) := by
  obtain ⟨blocks, hb, ht⟩ := except_bind_eq_ok.1 h
  rw [membersSize, ← map_extent_of_laidOut hf hb]
  exact length_of_tupleCells (fits_of_laidOut hb) ht

theorem length_of_elementCells {t : Ty} (h : elementCells (cells c room) t vs = .ok cs) :
    cs.length = collectionSize (Layout.ofTy t) (sizes vs) := by
  obtain ⟨blocks, hb, ht⟩ := except_bind_eq_ok.1 h
  rw [← map_length_of_elements hf hb]
  exact length_of_collectionCells (fst_of_elements hb) ht

end Containers

/-- **What is written for a value is as large as the value.** -/
theorem length_eq_size : ∀ {room : Nat} {v : Value} {cs : List Cell}, cells c room v = .ok cs → cs.length = size v
  | room + 1, v, cs, h => by
    have ih {w : Value} {cs : List Cell} : cells c room w = .ok cs → cs.length = size w := length_eq_size
    cases v with
    | scalar s =>
      obtain ⟨bs, hs, rfl⟩ := except_map_eq_ok.1 h
      rw [length_given, length_scalarBytes hs, size]
    | array t items => exact length_of_elementCells ih h
    | struct members => exact length_of_memberCells ih h
    | entry k w =>
      have h : memberCells (cells c room) [.scalar k, w] = .ok cs := h
      exact length_of_memberCells ih h
    | variant w =>
      obtain ⟨ds, hw, rfl⟩ := except_map_eq_ok.1 h
      rw [List.length_append, length_given, ih hw, size, List.length_cons, List.length_map, Nat.add_comm 1]
    | nothing t =>
      cases h
      rfl
    | just w =>
      obtain ⟨ds, hw, rfl⟩ := except_map_eq_ok.1 h
      rw [List.length_append, length_given, ih hw, size]

end Marshal.Gvariant
