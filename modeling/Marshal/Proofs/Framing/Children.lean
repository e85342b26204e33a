import Marshal.Proofs.Framing.Blocks
/-!
# Children and their windows

What `exists_tupleCells_iff` and `exists_collectionCells_iff` say of blocks, said of the children themselves: bytes are
those of a container exactly when its reader finds windows in them, each child's bytes are in its window, and the
container is as large as a writer makes it. Writers and readers of values meet here.
-/
namespace Marshal.Framing

open Cell

variable {α : Type} {bs : List UInt8} {f : α → Except Error (List Cell)} {children : List (Layout × α)}

/-- Whether the bytes of each child are in its window. -/
def Holds (f : α → Except Error (List Cell)) (bs : List UInt8) (children : List (Layout × α))
    (ws : List Window) : Prop :=
  List.Forall₂ (fun c w => ∃ cs, f c.2 = .ok cs ∧ Matches cs (w.slice bs)) children ws

/-- Every window starts where its child is aligned. -/
theorem Tiled.dvd_start : ∀ {p : Nat} {ls : List Layout} {ws : List Window}, (∀ l ∈ ls, 0 < l.alignment) →
    Tiled p ls ws → List.Forall₂ (fun l w => l.alignment ∣ w.start) ls ws
  | _, [], [], _, _ => .nil
  | p, l :: _, _ :: _, hl, ⟨h1, _, _, h⟩ => by
    obtain ⟨hl, hls⟩ := List.forall_mem_cons.1 hl
    refine .cons ?_ (h.dvd_start hls)
    rw [h1]
    exact dvd_alignUp p hl

theorem holds_iff {ws : List Window} : Holds f bs children ws ↔
    ∃ blocks, blocksOf f children = .ok blocks ∧ List.Forall₂ (fun b w => Matches b.2 (w.slice bs)) blocks ws := by
  simp only [blocksOf_eq_ok]
  rw [← forall₂_comp_iff, Holds]
  constructor
  · refine List.Forall₂.imp fun c w h => ?_
    obtain ⟨cs, hcs, hm⟩ := h
    exact ⟨(c.1, cs), ⟨rfl, hcs⟩, hm⟩
  · refine List.Forall₂.imp fun c w h => ?_
    obtain ⟨b, hb, hm⟩ := h
    exact ⟨b.2, hb.2, hm⟩

theorem Closes.lastStop_le {ls : List Layout} {ws : List Window} (h : Closes ls ws bs) : lastStop 0 ws ≤ bs.length := by
  unfold Closes at h
  split at h
  · exact h ▸ le_alignUp _ _
  · exact h.1

/-- **Bytes are those of a tuple** exactly when each member is in the window that the reader finds for it, and the tuple
is as large as a writer makes it. -/
theorem exists_tuple_iff (hne : children ≠ []) (hl : ∀ c ∈ children, 0 < c.1.alignment)
    (hf : ∀ c ∈ children, ∀ n ∈ c.1.fixedSize, ∀ cs, f c.2 = .ok cs → cs.length = n) :
    (∃ blocks cs, blocksOf f children = .ok blocks ∧
        tupleCells (tupleAlignment (children.map Prod.fst)) 0 blocks = .ok cs ∧ Matches cs bs) ↔
      ∃ ws, windows bs.toArray (children.map Prod.fst) = .ok ws ∧ Holds f bs children ws ∧
        IsSnug bs.length (offsetCount (children.map Prod.fst)) := by
  have hne' : children.map Prod.fst ≠ [] := mt List.map_eq_nil_iff.1 hne
  have hl' : ∀ l ∈ children.map Prod.fst, 0 < l.alignment := by simpa using fun l c hc => hl (l, c) hc
  have hblocks {blocks : List Block} (hb : blocksOf f children = .ok blocks) :
      (∃ cs, tupleCells (tupleAlignment (children.map Prod.fst)) 0 blocks = .ok cs ∧ Matches cs bs) ↔
        windows bs.toArray (blocks.map Prod.fst) = .ok (spans 0 blocks) ∧
          IsSnug bs.length (offsetCount (blocks.map Prod.fst)) ∧
            List.Forall₂ (fun b w => Matches b.2 (w.slice bs)) blocks (spans 0 blocks) := by
    refine exists_tupleCells_iff ?_ ?_ (by rw [map_fst_of_blocksOf hb]) (fits_of_blocksOf hb hf)
    · rintro rfl
      exact hne' (map_fst_of_blocksOf hb).symm
    · intro b hmem
      exact hl' b.1 (map_fst_of_blocksOf hb ▸ List.mem_map_of_mem hmem)
  constructor
  · rintro ⟨blocks, cs, hb, hcs, hm⟩
    obtain ⟨hws, hsnug, hmatch⟩ := (hblocks hb).1 ⟨cs, hcs, hm⟩
    rw [map_fst_of_blocksOf hb] at hws hsnug
    exact ⟨spans 0 blocks, hws, holds_iff.2 ⟨blocks, hb, hmatch⟩, hsnug⟩
  · rintro ⟨ws, hws, hholds, hsnug⟩
    obtain ⟨blocks, hb, hmatch⟩ := holds_iff.1 hholds
    obtain ⟨ht, hc⟩ := (windows_eq_ok hne' hl').1 hws
    rw [← map_fst_of_blocksOf hb] at ht hws hsnug
    obtain rfl := spans_eq hmatch ht hc.lastStop_le
    obtain ⟨cs, hcs, hm⟩ := (hblocks hb).2 ⟨hws, hsnug, hmatch⟩
    exact ⟨blocks, cs, hb, hcs, hm⟩

theorem tiled_of_elementWindows {l : Layout} {ws : List Window} (hl : 0 < l.alignment)
    (hd : ∀ n ∈ l.fixedSize, l.alignment ∣ n) (h : elementWindows bs.toArray l = .ok ws) :
    Tiled 0 (List.replicate ws.length l) ws ∧ lastStop 0 ws ≤ bs.length ∧ (l.fixedSize = some 0 → ws = []) := by
  cases hn : l.fixedSize with
  | some n =>
    obtain ⟨h1, h2, h3⟩ := (elementWindows_fixed hn (hd n hn)).1 h
    exact ⟨h1, h2.ge, fun h0 => h3 (Option.some.inj h0)⟩
  | none =>
    obtain ⟨h1, -, h2, -⟩ := (elementWindows_variable hl hn).1 h
    exact ⟨h1, h2, nofun⟩

/-- **The same for an array.** -/
theorem exists_collection_iff {l : Layout} {items : List α} (hl : 0 < l.alignment)
    (hd : ∀ n ∈ l.fixedSize, l.alignment ∣ n) (hz : l.fixedSize = some 0 → items = [])
    (hf : ∀ x ∈ items, ∀ n ∈ l.fixedSize, ∀ cs, f x = .ok cs → cs.length = n) :
    (∃ blocks cs, blocksOf f (items.map (l, ·)) = .ok blocks ∧ collectionCells l 0 blocks = .ok cs ∧ Matches cs bs) ↔
      ∃ ws, elementWindows bs.toArray l = .ok ws ∧ Holds f bs (items.map (l, ·)) ws ∧
        IsSnug bs.length (elementCount l ws.length) := by
  have hls {blocks : List Block} (hb : blocksOf f (items.map (l, ·)) = .ok blocks) :
      blocks.map Prod.fst = List.replicate items.length l := by
    rw [map_fst_of_blocksOf hb, List.map_map]
    exact List.map_const'
  have hfits {blocks : List Block} (hb : blocksOf f (items.map (l, ·)) = .ok blocks) : ∀ b ∈ blocks, b.Fits := by
    refine fits_of_blocksOf hb fun c hc => ?_
    obtain ⟨x, hx, rfl⟩ := List.mem_map.1 hc
    exact hf x hx
  have hblocks {blocks : List Block} (hb : blocksOf f (items.map (l, ·)) = .ok blocks) :
      (∃ cs, collectionCells l 0 blocks = .ok cs ∧ Matches cs bs) ↔ _ :=
    exists_collectionCells_iff hl hd
      (fun h0 => by
        have := hls hb
        rw [hz h0] at this
        exact List.map_eq_nil_iff.1 this)
      (fun b hmem => by
        have hfst : b.1 ∈ blocks.map Prod.fst := List.mem_map_of_mem hmem
        rw [hls hb] at hfst
        exact List.eq_of_mem_replicate hfst)
      (hfits hb)
  constructor
  · rintro ⟨blocks, cs, hb, hcs, hm⟩
    obtain ⟨hws, hsnug, hmatch⟩ := (hblocks hb).1 ⟨cs, hcs, hm⟩
    rw [← length_spans 0] at hsnug
    exact ⟨spans 0 blocks, hws, holds_iff.2 ⟨blocks, hb, hmatch⟩, hsnug⟩
  · rintro ⟨ws, hws, hholds, hsnug⟩
    obtain ⟨blocks, hb, hmatch⟩ := holds_iff.1 hholds
    obtain ⟨ht, hle, -⟩ := tiled_of_elementWindows hl hd hws
    have hlen : ws.length = items.length := by rw [← hholds.length_eq, List.length_map]
    rw [hlen, ← hls hb] at ht
    obtain rfl := spans_eq hmatch ht hle
    rw [length_spans] at hsnug
    obtain ⟨cs, hcs, hm⟩ := (hblocks hb).2 ⟨hws, hsnug, hmatch⟩
    exact ⟨blocks, cs, hb, hcs, hm⟩

/-! ## What can go wrong -/

theorem exists_of_blocksOf_error {e : Error} : ∀ {children : List (Layout × α)}, blocksOf f children = .error e →
    ∃ c ∈ children, f c.2 = .error e
  | (l, x) :: children, h => by
    rcases except_bind_eq_error.1 h with hx | ⟨cs, -, h⟩
    · exact ⟨(l, x), List.mem_cons_self, hx⟩
    rcases except_bind_eq_error.1 h with hb | ⟨blocks, -, h⟩
    · obtain ⟨c, hc, hx⟩ := exists_of_blocksOf_error hb
      exact ⟨c, List.mem_cons_of_mem _ hc, hx⟩
    · cases h

/-- A container whose children can be written fails only for an offset that is too large. -/
theorem withTable_eq_error {body : List Cell} {xs : List Nat} {e : Error} (h : withTable body xs = .error e) :
    e = .offsetTooLarge := by
  unfold withTable tableBytes at h
  split at h
  · cases h
  · cases h
    rfl

theorem tupleCells_eq_error {a p : Nat} {blocks : List Block} {e : Error} (h : tupleCells a p blocks = .error e) :
    e = .offsetTooLarge := by
  unfold tupleCells at h
  simp only at h
  split at h
  · cases h
  · exact withTable_eq_error h

end Marshal.Framing
