import Marshal.Codec
import Marshal.Proofs.Framing.Children
import Marshal.Proofs.Nesting
import Marshal.Proofs.Scalars
/-!
# The cells of a GVariant value

No position is needed: a value is laid out in the same way wherever it is aligned, and `cells` leaves out the padding
in front of it. That the encoder writes this padding and then the cells is `lays_put`. Values of a type of fixed size
have as many cells (`length_cells`).
-/
namespace Marshal

/-! ## Layouts of members -/

namespace Framing

theorem foldl_alignment (ts : List Ty) : ∀ {a : Nat}, 1 ≤ a →
    (ts.map Layout.ofTy).foldl (fun a l => max a l.alignment) a = max a (Ty.gvariantAlignments ts) := by
  induction ts with
  | nil => exact fun ha => (max_eq_left ha).symm
  | cons t ts ih =>
    intro a ha
    rw [List.map_cons, List.foldl_cons, ih (le_max_of_le_left ha), Ty.gvariantAlignments, max_assoc]
    rfl

/-- The alignment of a tuple is that of the struct with its members. -/
theorem tupleAlignment_map_ofTy (ts : List Ty) : tupleAlignment (ts.map Layout.ofTy) = Ty.gvariantAlignments ts := by
  rw [tupleAlignment, foldl_alignment ts le_rfl, max_eq_right (pos_of_dvd_eight (Ty.gvariantAlignments_dvd_eight ts))]

/-- A struct has a fixed size when all its members have. -/
theorem isSome_fixedSizes : ∀ (ts : List Ty) (p : Nat), (Ty.fixedSizes p ts).isSome = allFixed (ts.map Layout.ofTy)
  | [], _ => rfl
  | t :: ts, p => by
    rw [Ty.fixedSizes, allFixed, List.map_cons, List.all_cons, ← allFixed]
    cases ht : t.fixedSize with
    | none => simp [Layout.isFixed, Layout.ofTy, ht]
    | some n => simp [Layout.isFixed, Layout.ofTy, ht, isSome_fixedSizes ts]

/-- Members of fixed sizes end where the sizes say. -/
theorem length_place_fixed : ∀ {ts : List Ty} {blocks : List Block} {p e : Nat},
    blocks.map Prod.fst = ts.map Layout.ofTy →
    (∀ b ∈ blocks, b.Fits) → Ty.fixedSizes p ts = some e → p + (place p blocks).length = e
  | [], [], p, e, _, _, h => Option.some.inj h
  | t :: ts, (l, cs) :: blocks, p, e, hls, hfit, h => by
    obtain ⟨rfl, htail⟩ := List.cons.inj hls
    rw [Ty.fixedSizes] at h
    split at h
    · rename_i n hn
      have hcs : cs.length = n := hfit (Layout.ofTy t, cs) (List.mem_cons_self ..) n hn
      have ih := length_place_fixed htail (fun b hb => hfit b (List.mem_cons_of_mem _ hb)) h
      rw [place, List.length_append, List.length_append, Cell.length_blank, hcs, ← ih]
      simp only [Layout.ofTy, alignUp]
      omega
    · cases h

end Framing

namespace Gvariant

open Cell Put Framing

def scalarBytes (o : ByteOrder) : Scalar → Except Error (List UInt8)
  | .int k n => intBytes ⟨k.width, k.isSigned, o⟩ n
  | .boolean b => booleanBytes booleanWidth o b
  | .double bits => .ok (doubleBytes o bits)
  | .text .signature s => signatureBytes false (Text.ofString s)
  | .text .string s | .text .objectPath s => charsBytes 0 o s.toList

/-- What ends a maybe that holds a value. -/
def justEnd (t : Ty) : List UInt8 := if t.fixedSize.isSome then [] else [0]

/-- The cells of the members of a struct or dict entry, from those of each. -/
def memberCells (f : Value → Except Error (List Cell)) (members : List Value) : Except Error (List Cell) := do
  let blocks ← blocksOf f (laidOut members)
  tupleCells (Ty.gvariantAlignments (Value.tys members)) 0 blocks

def elementCells (f : Value → Except Error (List Cell)) (t : Ty) (items : List Value) : Except Error (List Cell) := do
  let blocks ← blocksOf f (items.map (Layout.ofTy t, ·))
  collectionCells (Layout.ofTy t) 0 blocks

/-- The cells of a value with room for a number of levels, from its own alignment on. -/
def cells (c : Codec) : (room : Nat) → Value → Except Error (List Cell)
  | 0, _ => .error (.valueTooDeep c.maxDepth)
  | room + 1, v =>
    match v with
    | .scalar s => (scalarBytes c.order s).map given
    | .array t items => elementCells (cells c room) t items
    | .struct members => memberCells (cells c room) members
    | .entry k w => memberCells (cells c room) [.scalar k, w]
    | .variant w => (cells c room w).map (· ++ given (0 :: w.ty.signature.map UInt8.ofNat))
    | .nothing _ => .ok []
    | .just w => (cells c room w).map (· ++ given (justEnd w.ty))

theorem emits_putScalar (o : ByteOrder) (s : Scalar) : Emits (putScalar o s) (scalarBytes o s) := by
  cases s with
  | int k n => exact emits_int _ n
  | boolean b => exact emits_boolean _ o b
  | double bits => exact emits_double o bits
  | text k s =>
    cases k with
    | string | objectPath => exact emits_chars 0 o s.toList
    | signature => exact emits_signature false (Text.ofString s)

/-! ## Writing -/

/-- What is written behind padding, if it is the same at every aligned position. -/
theorem lays_aligned {a : Nat} (ha : a ∣ 8) {next : Put Unit} {g : Nat → Except Error (List Cell)}
    {r : Except Error (List Cell)} (hn : Lays next fun p => cellsOnly (g p)) (hg : ∀ p, a ∣ p → g p = r) :
    Lays (do Put.pad a; next) fun p => cellsOnly (r.map (blank (padTo p a) ++ ·)) := by
  refine ((lays_pad ha).andThen hn).congr fun p => ?_
  have hdvd : a ∣ p + padTo p a := dvd_alignUp p (pos_of_dvd_eight ha)
  simp only [follow, bind, Except.bind, length_blank, hg _ hdvd]
  cases r <;> rfl

theorem alignment_dvd_of_blocksOf {f : Value → Except Error (List Cell)} {children : List (Layout × Value)} {n : Nat}
    {blocks : List Block} (hb : blocksOf f children = .ok blocks) (h : ∀ c ∈ children, c.1.alignment ∣ n) :
    ∀ b ∈ blocks, b.1.alignment ∣ n := by
  intro b hmem
  have hfst : b.1 ∈ children.map Prod.fst := map_fst_of_blocksOf hb ▸ List.mem_map_of_mem hmem
  obtain ⟨c, hc, heq⟩ := List.mem_map.1 hfst
  exact heq ▸ h c hc

/-- The members of a struct or dict entry behind their padding. -/
theorem lays_tuple {put : Value → Put Unit} {f : Value → Except Error (List Cell)} {a : Nat} {members : List Value}
    (ha : a = Ty.gvariantAlignments (Value.tys members)) (hput : ∀ v ∈ members, Pads put f (Layout.ofTy v.ty, v)) :
    Lays (do Put.pad a; putTuple put a (laidOut members)) fun p =>
      cellsOnly ((memberCells f members).map (blank (padTo p a) ++ ·)) := by
  have ha8 : a ∣ 8 := ha ▸ Ty.gvariantAlignments_dvd_eight _
  refine lays_aligned ha8 (lays_putTuple (f := f) ha8 fun m hm => ?_) fun p hp => ?_
  · obtain ⟨v, hv, rfl⟩ := List.mem_map.1 hm
    exact ⟨v.ty.gvariantAlignment_dvd_eight, hput v hv⟩
  · rw [memberCells, ← ha]
    cases hb : blocksOf f (laidOut members) with
    | error e => rfl
    | ok blocks =>
      refine tupleCells_of_dvd hp (alignment_dvd_of_blocksOf hb fun m hm => ?_)
      obtain ⟨v, hv, rfl⟩ := List.mem_map.1 hm
      rw [ha, Value.tys_eq_map] at hp
      exact (Ty.dvd_gvariantAlignments (List.mem_map_of_mem hv)).trans hp

theorem alignment_struct (members : List Value) :
    (Value.struct members).ty.gvariantAlignment = Ty.gvariantAlignments (Value.tys members) := by
  rw [Value.ty, Ty.gvariantAlignment]

/-- A dict entry is aligned as the struct with its key and value. -/
theorem alignment_entry (k : Scalar) (w : Value) :
    (Value.entry k w).ty.gvariantAlignment = Ty.gvariantAlignments (Value.tys [.scalar k, w]) := by
  rw [Value.ty, Ty.gvariantAlignment_entry, Ty.gvariantAlignment]
  rfl

/-- **What the encoder writes for a value is the padding up to its alignment and its cells.** -/
theorem lays_put (c : Codec) : ∀ (room : Nat) {v : Value}, v.isTyped = true →
    Lays (Gvariant.put c room v) fun p => cellsOnly ((cells c room v).map (blank (padTo p v.ty.gvariantAlignment) ++ ·))
  | 0, v, _ => lays_throw _
  | room + 1, v, hv => by
    have ih {w : Value} (hw : w.isTyped = true) : Pads (Gvariant.put c room) (cells c room) (Layout.ofTy w.ty, w) :=
      lays_put c room hw
    cases v with
    | scalar s =>
      have ha := (Ty.basic s.basic).gvariantAlignment_dvd_eight
      exact lays_aligned ha (emits_putScalar c.order s) fun _ _ => rfl
    | array t items =>
      rw [Value.isTyped, Value.haveType_iff] at hv
      have ha := (Ty.array t).gvariantAlignment_dvd_eight
      refine lays_aligned ha (lays_putCollection (f := cells c room) (l := Layout.ofTy t)
        t.gvariantAlignment_dvd_eight fun w hw => ?_)
        fun p hp => ?_
      · obtain ⟨hw, rfl⟩ := hv w hw
        exact ih hw
      · rw [cells, elementCells]
        cases hb : blocksOf (cells c room) (items.map (Layout.ofTy t, ·)) with
        | error e => rfl
        | ok blocks =>
          refine collectionCells_of_dvd (alignment_dvd_of_blocksOf hb fun m hm => ?_)
          obtain ⟨w, hw, rfl⟩ := List.mem_map.1 hm
          rwa [Ty.gvariantAlignment] at hp
    | struct members =>
      rw [Value.isTyped, Value.areTyped_iff] at hv
      exact lays_tuple (alignment_struct members) fun w hw => ih (hv w hw)
    | entry k w =>
      rw [Value.isTyped] at hv
      refine lays_tuple (alignment_entry k w) fun v hmem => ?_
      rcases List.mem_pair.1 hmem with rfl | rfl
      · exact ih rfl
      · exact ih hv
    | variant w =>
      rw [Value.isTyped] at hv
      have hnext := Lays.andThen (ih hv) ((emits_writeByte (n := 0) (by decide)).andThen
        (emits_writeBytes (w.ty.signature.map UInt8.ofNat)))
      refine lays_aligned Ty.variant.gvariantAlignment_dvd_eight hnext fun p hp => ?_
      have hzero := padTo_of_dvd (Int.natCast_dvd_natCast.2 (w.ty.gvariantAlignment_dvd_eight.trans hp))
      simp only [follow, Layout.ofTy, hzero, cells]
      cases cells c room w <;> rfl
    | nothing t => exact lays_aligned (Ty.maybe t).gvariantAlignment_dvd_eight emits_pure fun _ _ => rfl
    | just w =>
      rw [Value.isTyped] at hv
      have hend : Emits (if w.ty.fixedSize.isSome then pure () else Put.writeByte 0)
          (.ok (justEnd w.ty)) := by
        unfold justEnd
        split
        · exact emits_pure
        · exact emits_writeByte (n := 0) (by decide)
      refine lays_aligned (Value.just w).ty.gvariantAlignment_dvd_eight (Lays.andThen (ih hv) hend) fun p hp => ?_
      have hzero := padTo_of_dvd (Int.natCast_dvd_natCast.2 hp)
      rw [Value.ty, Ty.gvariantAlignment] at hzero
      simp only [follow, Layout.ofTy, hzero, cells]
      cases cells c room w <;> rfl

theorem encode_eq {c : Codec} (hc : c.format = .gvariant) {v : Value} (hv : v.isTyped = true) :
    c.encode none v = (cells c c.room v).map fun cs => (render cs).toArray := by
  rw [Codec.encode, Codec.put, hc]
  refine (run_eq (f := fun p => (cells c c.room v).map (blank (padTo p v.ty.gvariantAlignment) ++ ·))
    (lays_put c c.room hv)).trans ?_
  have hzero : padTo (0 : Nat) v.ty.gvariantAlignment = 0 := padTo_of_dvd (dvd_zero _)
  rw [hzero]
  cases cells c c.room v <;> rfl

/-! ## Fixed sizes -/

/-- The number of bytes of a scalar. -/
def scalarSize : Scalar → Nat
  | .int k _ => k.width
  | .boolean _ => booleanWidth
  | .double _ => 8
  | .text _ s => (Utf8.encode s.toList).length + 1

theorem length_scalarBytes {o : ByteOrder} {s : Scalar} {bs : List UInt8} (h : scalarBytes o s = .ok bs) :
    bs.length = scalarSize s := by
  cases s with
  | int k n => exact length_intBytes h
  | boolean b => exact length_intBytes h
  | double bits =>
    cases h
    exact length_doubleBytes o bits
  | text k s =>
    cases k with
    | string | objectPath => exact (length_charsBytes h).trans (Nat.zero_add _)
    | signature => exact (length_charsBytes (signatureBytes_eq_ok.1 h).2).trans (Nat.zero_add _)

theorem scalarSize_of_fixedSize {s : Scalar} {n : Nat} (h : s.basic.fixedSize = some n) : scalarSize s = n := by
  cases s with
  | int k m => exact Option.some.inj h
  | boolean b => exact Option.some.inj h
  | double bits => exact Option.some.inj h
  | text k s => cases h

/-- The members of a struct of fixed size and the padding at its end. -/
theorem length_tupleCells {ts : List Ty} {n : Nat} {blocks : List Block} {cs : List Cell}
    (hls : blocks.map Prod.fst = ts.map Layout.ofTy) (hfit : ∀ b ∈ blocks, b.Fits)
    (hn : (Ty.struct ts).fixedSize = some n) (h : tupleCells (Ty.gvariantAlignments ts) 0 blocks = .ok cs) :
    cs.length = n := by
  rw [Ty.fixedSize, Option.map_eq_some_iff] at hn
  obtain ⟨stop, hstop, rfl⟩ := hn
  have hfixed := isSome_fixedSizes ts 0
  rw [hstop] at hfixed
  have hplace := length_place_fixed hls hfit hstop
  unfold tupleCells at h
  simp only [hls, ← hfixed, Option.isSome_some, if_true, Except.ok.injEq, hplace] at h
  rw [← h, List.length_append, length_blank, alignUp]
  omega

theorem map_fst_laidOut (members : List Value) :
    (laidOut members).map Prod.fst = (Value.tys members).map Layout.ofTy := by
  rw [laidOut, List.map_map, Value.tys_eq_map, List.map_map]
  rfl

/-- **A value of a type of fixed size has as many cells.** -/
theorem length_cells (c : Codec) : ∀ {room : Nat} {v : Value} {n : Nat} {cs : List Cell}, v.ty.fixedSize = some n →
    cells c room v = .ok cs → cs.length = n
  | room + 1, v, n, cs, hn, h => by
    have htuple {members : List Value} (h : memberCells (cells c room) members = .ok cs)
        (hn : (Ty.struct (Value.tys members)).fixedSize = some n) : cs.length = n := by
      obtain ⟨blocks, hb, ht⟩ := except_bind_eq_ok.1 h
      refine length_tupleCells ?_ (fits_of_blocksOf hb fun m hm n hn cs h => ?_) hn ht
      · rw [map_fst_of_blocksOf hb, map_fst_laidOut]
      · obtain ⟨v, -, rfl⟩ := List.mem_map.1 hm
        exact length_cells c hn h
    cases v with
    | scalar s =>
      obtain ⟨bs, hs, rfl⟩ := except_map_eq_ok.1 h
      rw [Value.ty, Ty.fixedSize] at hn
      rw [length_given, length_scalarBytes hs, scalarSize_of_fixedSize hn]
    | struct members => exact htuple h hn
    | entry k w =>
      rw [Value.ty, Ty.fixedSize_entry] at hn
      have h : memberCells (cells c room) [.scalar k, w] = .ok cs := h
      exact htuple h hn
    | array _ _ | variant _ | nothing _ | just _ =>
      rw [Value.ty, Ty.fixedSize] at hn
      cases hn

/-! ## Bytes in their windows -/

/-- **Bytes are those of a struct or dict entry** exactly when the bytes of each member are in the window that the
reader finds for it, and the whole is as large as a writer makes it. -/
theorem exists_members_iff {c : Codec} {room : Nat} {members : List Value} {bs : List UInt8} (hne : members ≠ []) :
    (∃ cs, memberCells (cells c room) members = .ok cs ∧ Matches cs bs) ↔
      ∃ ws, windows bs.toArray ((Value.tys members).map Layout.ofTy) = .ok ws ∧
        List.Forall₂ (fun v w => ∃ cs, cells c room v = .ok cs ∧ Matches cs (w.slice bs)) members ws ∧
          IsSnug bs.length (offsetCount ((Value.tys members).map Layout.ofTy)) := by
  have hl : ∀ ch ∈ laidOut members, 0 < ch.1.alignment := by
    intro ch hch
    obtain ⟨v, -, rfl⟩ := List.mem_map.1 hch
    exact v.ty.gvariantAlignment_pos
  have hf : ∀ ch ∈ laidOut members, ∀ n ∈ ch.1.fixedSize, ∀ cs, cells c room ch.2 = .ok cs → cs.length = n := by
    intro ch hch n hn cs hcs
    obtain ⟨v, -, rfl⟩ := List.mem_map.1 hch
    exact length_cells c hn hcs
  have hne' : laidOut members ≠ [] := mt List.map_eq_nil_iff.1 hne
  have h : (∃ blocks cs, blocksOf (cells c room) (laidOut members) = .ok blocks ∧
      tupleCells (tupleAlignment ((laidOut members).map Prod.fst)) 0 blocks = .ok cs ∧ Matches cs bs) ↔ _ :=
    exists_tuple_iff hne' hl hf
  rw [map_fst_laidOut, tupleAlignment_map_ofTy] at h
  simp only [memberCells, except_bind_eq_ok]
  constructor
  · rintro ⟨cs, ⟨blocks, hb, ht⟩, hm⟩
    obtain ⟨ws, hws, hholds, hsnug⟩ := h.1 ⟨blocks, cs, hb, ht, hm⟩
    exact ⟨ws, hws, List.forall₂_map_left_iff.1 hholds, hsnug⟩
  · rintro ⟨ws, hws, hholds, hsnug⟩
    obtain ⟨blocks, cs, hb, ht, hm⟩ := h.2 ⟨ws, hws, List.forall₂_map_left_iff.2 hholds, hsnug⟩
    exact ⟨cs, ⟨blocks, hb, ht⟩, hm⟩

/-- **The same for an array.** -/
theorem exists_elements_iff {c : Codec} {room : Nat} {t : Ty} {items : List Value} {bs : List UInt8}
    (ht : ∀ v ∈ items, v.ty = t) (hz : t.fixedSize = some 0 → items = []) :
    (∃ cs, elementCells (cells c room) t items = .ok cs ∧ Matches cs bs) ↔
      ∃ ws, elementWindows bs.toArray (Layout.ofTy t) = .ok ws ∧
        List.Forall₂ (fun v w => ∃ cs, cells c room v = .ok cs ∧ Matches cs (w.slice bs)) items ws ∧
          IsSnug bs.length (elementCount (Layout.ofTy t) ws.length) := by
  have hf : ∀ v ∈ items, ∀ n ∈ (Layout.ofTy t).fixedSize, ∀ cs, cells c room v = .ok cs → cs.length = n := by
    intro v hv n hn cs hcs
    rw [← ht v hv] at hn
    exact length_cells c hn hcs
  have h : (∃ blocks cs, blocksOf (cells c room) (items.map (Layout.ofTy t, ·)) = .ok blocks ∧
      collectionCells (Layout.ofTy t) 0 blocks = .ok cs ∧ Matches cs bs) ↔ _ :=
    exists_collection_iff t.gvariantAlignment_pos (fun n hn => Ty.gvariantAlignment_dvd_fixedSize hn) hz hf
  simp only [elementCells, except_bind_eq_ok]
  constructor
  · rintro ⟨cs, ⟨blocks, hb, ht⟩, hm⟩
    obtain ⟨ws, hws, hholds, hsnug⟩ := h.1 ⟨blocks, cs, hb, ht, hm⟩
    exact ⟨ws, hws, List.forall₂_map_left_iff.1 hholds, hsnug⟩
  · rintro ⟨ws, hws, hholds, hsnug⟩
    obtain ⟨blocks, cs, hb, ht, hm⟩ := h.2 ⟨ws, hws, List.forall₂_map_left_iff.2 hholds, hsnug⟩
    exact ⟨cs, ⟨blocks, hb, ht⟩, hm⟩

end Gvariant

end Marshal
