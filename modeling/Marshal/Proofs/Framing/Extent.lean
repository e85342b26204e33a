import Marshal.Proofs.Framing.Children
/-!
# How large a container is

The size of a container follows from the layouts and the sizes of its children, and nothing has to be written to know
it (`tupleSize`, `collectionSize`). Offsets are wide enough for every container of less than 2^64 bytes, so only a
larger one cannot be written when its children can (`le_tupleSize_of_error`, `le_collectionSize_of_error`).
-/
namespace Marshal.Framing

open Cell

/-- Where children of given layouts and sizes end that are placed from a position on. -/
def endOf : Nat → List (Layout × Nat) → Nat
  | p, [] => p
  | p, (l, n) :: children => endOf (alignUp p l.alignment + n) children

/-- The size of a container with its table. -/
def framedSize (body count : Nat) : Nat := (containerSize body count).toNat

def tupleSize (alignment : Nat) (children : List (Layout × Nat)) : Nat :=
  let body := endOf 0 children
  let ls := children.map Prod.fst
  if allFixed ls then alignUp body alignment else framedSize body (offsetCount ls)

def collectionSize (l : Layout) (sizes : List Nat) : Nat :=
  framedSize (endOf 0 (sizes.map (l, ·))) (elementCount l sizes.length)

theorem natCast_framedSize (body count : Nat) : (framedSize body count : Int) = containerSize body count := by
  rw [framedSize, Int.toNat_of_nonneg]
  rw [containerSize_eq]
  positivity

theorem framedSize_eq (body count : Nat) :
    framedSize body count = body + offsetWidth (framedSize body count) * count := by
  have h := containerSize_eq body count
  rw [← natCast_framedSize] at h
  exact_mod_cast h

theorem le_framedSize (body count : Nat) : body ≤ framedSize body count := Nat.le.intro (framedSize_eq ..).symm

theorem le_endOf : ∀ (p : Nat) (children : List (Layout × Nat)), p ≤ endOf p children
  | _, [] => le_rfl
  | p, (l, n) :: children => by
    have h1 := le_alignUp p l.alignment
    have h2 := le_endOf (alignUp p l.alignment + n) children
    rw [endOf]
    omega

theorem snd_le_endOf {child : Layout × Nat} : ∀ (p : Nat) {children : List (Layout × Nat)}, child ∈ children →
    child.2 ≤ endOf p children
  | p, (l, n) :: children, h => by
    rw [endOf]
    rcases List.mem_cons.1 h with rfl | h
    · have := le_endOf (alignUp p l.alignment + n) children
      omega
    · exact snd_le_endOf _ h

/-- A tuple is at least as large as its members. -/
theorem snd_le_tupleSize {child : Layout × Nat} {a : Nat} {children : List (Layout × Nat)} (h : child ∈ children) :
    child.2 ≤ tupleSize a children := by
  refine (snd_le_endOf 0 h).trans ?_
  unfold tupleSize
  dsimp only
  split
  · exact le_alignUp _ _
  · exact le_framedSize _ _

theorem le_collectionSize {l : Layout} {n : Nat} {sizes : List Nat} (h : n ∈ sizes) : n ≤ collectionSize l sizes :=
  (snd_le_endOf 0 (List.mem_map_of_mem (f := (l, ·)) h)).trans (le_framedSize _ _)

/-! ## What is written -/

/-- The layout and the size of a child. -/
def Block.extent (b : Block) : Layout × Nat := (b.1, b.2.length)

variable {blocks : List Block} {a : Nat} {cs : List Cell} {e : Error}

theorem length_place : ∀ (p : Nat) (blocks : List Block),
    p + (place p blocks).length = endOf p (blocks.map Block.extent)
  | _, [] => rfl
  | p, (l, cs) :: blocks => by
    have h := length_place (alignUp p l.alignment + cs.length) blocks
    rw [place, List.map_cons, Block.extent, endOf, ← h, List.length_append, List.length_append, length_blank, alignUp]
    omega

theorem map_fst_extent (blocks : List Block) : (blocks.map Block.extent).map Prod.fst = blocks.map Prod.fst := by
  rw [List.map_map]
  rfl

/-- Every size below 2^64 can be told by offsets of the width that a container of that size has. -/
theorem lt_pow_offsetWidth {size : Nat} (h : size < 2 ^ 64) : size < 256 ^ offsetWidth size := by
  unfold offsetWidth
  split_ifs <;> norm_num <;> omega

/-- So there is room in the table for every offset into the children. -/
theorem lt_pow_offsetWidth_containerSize {body count x : Nat} (hx : x ≤ body) (h : framedSize body count < 2 ^ 64) :
    x < 256 ^ offsetWidth (containerSize body count) := by
  have hfit := lt_pow_offsetWidth h
  rw [natCast_framedSize] at hfit
  exact (hx.trans (le_framedSize ..)).trans_lt hfit

theorem length_of_withTable {body : List Cell} {xs : List Nat} (h : withTable body xs = .ok cs) :
    cs.length = framedSize body.length xs.length := by
  obtain ⟨bs, hb, rfl⟩ := except_map_eq_ok.1 h
  obtain ⟨-, rfl⟩ := tableBytes_eq_ok.1 hb
  rw [List.length_append, length_given, length_table, ← natCast_framedSize, ← framedSize_eq]

theorem le_framedSize_of_error {body : List Cell} {xs : List Nat} (hx : ∀ x ∈ xs, x ≤ body.length)
    (h : withTable body xs = .error e) : 2 ^ 64 ≤ framedSize body.length xs.length := by
  by_contra hlt
  rw [withTable, tableBytes, if_pos fun x hmem => lt_pow_offsetWidth_containerSize (hx x hmem) (not_le.1 hlt)] at h
  cases h

/-- No child ends behind the last one. -/
theorem stop_le_of_mem_spans {w : Window} : ∀ {p : Nat} {blocks : List Block}, w ∈ spans p blocks →
    w.stop ≤ p + (place p blocks).length
  | p, (l, cs) :: blocks, h => by
    rw [place, List.length_append, List.length_append, length_blank]
    rcases List.mem_cons.1 h with rfl | h
    · simp only [alignUp]
      omega
    · have := stop_le_of_mem_spans h
      simp only [alignUp] at this ⊢
      omega

theorem length_of_tupleCells (hfit : ∀ b ∈ blocks, b.Fits) (h : tupleCells a 0 blocks = .ok cs) :
    cs.length = tupleSize a (blocks.map Block.extent) := by
  have hplace := length_place 0 blocks
  rw [Nat.zero_add] at hplace
  unfold tupleCells at h
  unfold tupleSize
  rw [map_fst_extent, ← hplace]
  dsimp only at h ⊢
  split at h
  · rename_i hfixed
    cases h
    rw [if_pos hfixed, List.length_append, length_blank, alignUp, Nat.zero_add]
  · rename_i hvar
    rw [if_neg hvar, length_of_withTable h, List.length_reverse, List.length_map, (tiled_spans hfit).length_recorded]

theorem le_tupleSize_of_error (hfit : ∀ b ∈ blocks, b.Fits) (h : tupleCells a 0 blocks = .error e) :
    2 ^ 64 ≤ tupleSize a (blocks.map Block.extent) := by
  have hplace := length_place 0 blocks
  rw [Nat.zero_add] at hplace
  unfold tupleCells at h
  unfold tupleSize
  rw [map_fst_extent, ← hplace]
  dsimp only at h ⊢
  split at h
  · cases h
  · rename_i hvar
    have hle := le_framedSize_of_error (fun x hx => ?_) h
    · rw [List.length_reverse, List.length_map, (tiled_spans hfit).length_recorded] at hle
      rwa [if_neg hvar]
    · obtain ⟨y, hy, rfl⟩ := List.mem_map.1 (List.mem_reverse.1 hx)
      obtain ⟨w, hw, rfl⟩ := mem_recorded hy
      exact (stop_le_of_mem_spans hw).trans_eq (Nat.zero_add _)

variable {l : Layout}

/-- The ends of the elements of an array, if they are in a table. -/
def elementStops (l : Layout) (blocks : List Block) : List Nat :=
  if l.isFixed then [] else (spans 0 blocks).map (·.stop - 0)

theorem length_elementStops (l : Layout) (blocks : List Block) :
    (elementStops l blocks).length = elementCount l blocks.length := by
  unfold elementStops elementCount
  split
  · rfl
  · rw [List.length_map, length_spans]

theorem collectionSize_eq (hl : ∀ b ∈ blocks, b.1 = l) :
    collectionSize l (blocks.map (·.2.length)) =
      framedSize (place 0 blocks).length (elementStops l blocks).length := by
  have hextent : (blocks.map (·.2.length)).map (l, ·) = blocks.map Block.extent := by
    rw [List.map_map]
    exact List.map_congr_left fun b hb => by rw [Block.extent, hl b hb]; rfl
  have hplace := length_place 0 blocks
  rw [Nat.zero_add] at hplace
  rw [collectionSize, hextent, ← hplace, List.length_map, length_elementStops]

theorem length_of_collectionCells (hl : ∀ b ∈ blocks, b.1 = l) (h : collectionCells l 0 blocks = .ok cs) :
    cs.length = collectionSize l (blocks.map (·.2.length)) :=
  (length_of_withTable h).trans (collectionSize_eq hl).symm

theorem le_collectionSize_of_error (hl : ∀ b ∈ blocks, b.1 = l) (h : collectionCells l 0 blocks = .error e) :
    2 ^ 64 ≤ collectionSize l (blocks.map (·.2.length)) := by
  rw [collectionSize_eq hl]
  refine le_framedSize_of_error (fun x hx => ?_) h
  unfold elementStops at hx
  split at hx
  · cases hx
  · obtain ⟨w, hw, rfl⟩ := List.mem_map.1 hx
    exact (stop_le_of_mem_spans hw).trans_eq (Nat.zero_add _)

end Marshal.Framing
