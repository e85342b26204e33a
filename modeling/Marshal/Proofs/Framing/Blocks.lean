import Marshal.Proofs.Framing.Windows
/-!
# Children in their container

A container is laid out from its children's cells: `place` puts them one after the other, `spans` says where each comes
to stand, and the table follows. Bytes are those of a container exactly when its reader finds the windows where the
children were placed and the table is as wide as a writer makes it (`exists_tupleCells_iff`,
`exists_collectionCells_iff`).
-/
namespace Marshal.Framing

open Cell Put

/-- The cells of a child, with what its container has to know of it. -/
abbrev Block := Layout × List Cell

/-- Whether a child has the size that its layout says. -/
def Block.Fits (b : Block) : Prop := ∀ n ∈ b.1.fixedSize, b.2.length = n

/-- Children from a position on, each with its padding before it. -/
def place : Nat → List Block → List Cell
  | _, [] => []
  | p, (l, cs) :: blocks =>
    blank (padTo p l.alignment) ++ (cs ++ place (alignUp p l.alignment + cs.length) blocks)

/-- The windows in which the children are placed. -/
def spans : Nat → List Block → List Window
  | _, [] => []
  | p, (l, cs) :: blocks =>
    ⟨alignUp p l.alignment, alignUp p l.alignment + cs.length⟩ :: spans (alignUp p l.alignment + cs.length) blocks

theorem length_spans : ∀ (p : Nat) (blocks : List Block), (spans p blocks).length = blocks.length
  | _, [] => rfl
  | _, _ :: blocks => congrArg (· + 1) (length_spans _ blocks)

theorem tiled_spans : ∀ {p : Nat} {blocks : List Block}, (∀ b ∈ blocks, b.Fits) →
    Tiled p (blocks.map Prod.fst) (spans p blocks)
  | _, [], _ => trivial
  | _, (l, cs) :: blocks, h => by
    refine ⟨rfl, Nat.le_add_right .., fun n hn => ?_, tiled_spans fun b hb => h b (List.mem_cons_of_mem _ hb)⟩
    rw [← h (l, cs) (List.mem_cons_self ..) n hn]

theorem lastStop_spans : ∀ (p : Nat) (blocks : List Block), lastStop p (spans p blocks) = p + (place p blocks).length
  | _, [] => rfl
  | p, (l, cs) :: blocks => by
    rw [spans, lastStop, lastStop_spans, place, List.length_append, List.length_append, length_blank]
    simp only [alignUp]
    omega

variable {bs : List UInt8}

theorem Window.length_slice {w : Window} (h : w.stop ≤ bs.length) : (w.slice bs).length = w.stop - w.start := by
  rw [slice, List.length_take, List.length_drop]
  omega

/-- Blocks are placed in the windows that their bytes are in, if these follow one another. -/
theorem spans_eq {blocks : List Block} {ws : List Window}
    (h : List.Forall₂ (fun b w => Matches b.2 (w.slice bs)) blocks ws) : ∀ {p : Nat}, Tiled p (blocks.map Prod.fst) ws →
      lastStop p ws ≤ bs.length → spans p blocks = ws := by
  induction h with
  | nil => exact fun _ _ => rfl
  | @cons b w blocks ws hb _ ih =>
    intro p ht hle
    obtain ⟨h1, h2, -, h3⟩ := ht
    rw [lastStop] at hle
    have hlen := hb.length_eq
    rw [Window.length_slice (h3.le_lastStop.trans hle)] at hlen
    have hstop : alignUp p b.1.alignment + b.2.length = w.stop := by omega
    rw [spans, hstop, ih h3 hle, ← h1]

/-- **Bytes are those of children in a row when each child's window holds its bytes.** -/
theorem matches_place_iff : ∀ {p : Nat} {blocks : List Block}, p + (place p blocks).length ≤ bs.length →
    (Matches (place p blocks) ((bs.drop p).take (place p blocks).length) ↔
      List.Forall₂ (fun b w => Matches b.2 (w.slice bs)) blocks (spans p blocks))
  | p, [], _ => by
    rw [place, List.length_nil, List.take_zero, matches_nil_iff, spans]
    exact ⟨fun _ => .nil, fun _ => rfl⟩
  | p, (l, cs) :: blocks, hle => by
    have hstop : p + padTo p l.alignment + cs.length = alignUp p l.alignment + cs.length := rfl
    rw [place, List.length_append, List.length_append, length_blank] at hle
    rw [place, spans, List.forall₂_cons, List.length_append, List.length_append, length_blank, List.take_add,
      List.take_add, List.drop_drop, List.drop_drop, hstop, ← matches_place_iff (by unfold alignUp at hle ⊢; omega)]
    have hpad : (blank (padTo p l.alignment)).length = ((bs.drop p).take (padTo p l.alignment)).length := by
      rw [length_blank, List.length_take, List.length_drop]
      omega
    have hcs : cs.length = ((bs.drop (p + padTo p l.alignment)).take cs.length).length := by
      rw [List.length_take, List.length_drop]
      omega
    rw [matches_append_append_iff hpad, matches_append_append_iff hcs, matches_blank_iff, ← hpad, length_blank,
      and_iff_right rfl]
    simp only [Window.slice, Nat.add_sub_cancel_left]
    rfl

theorem matches_take_place_iff {blocks : List Block} (h : (place 0 blocks).length ≤ bs.length) :
    Matches (place 0 blocks) (bs.take (place 0 blocks).length) ↔
      List.Forall₂ (fun b w => Matches b.2 (w.slice bs)) blocks (spans 0 blocks) := by
  rw [← matches_place_iff (by rwa [Nat.zero_add]), List.drop_zero]

/-! ## Containers -/

/-- Cells with a table of offsets behind them. -/
def withTable (body : List Cell) (offsets : List Nat) : Except Error (List Cell) :=
  (tableBytes (offsetWidth (containerSize body.length offsets.length)) offsets).map (body ++ given ·)

/-- The cells of a tuple whose members start at a position. -/
def tupleCells (alignment p : Nat) (blocks : List Block) : Except Error (List Cell) :=
  let body := place p blocks
  let ls := blocks.map Prod.fst
  if allFixed ls then .ok (body ++ blank (padTo (p + body.length : Nat) alignment))
  else withTable body ((recorded ls (spans p blocks)).map (· - p)).reverse

/-- The cells of an array whose elements start at a position. -/
def collectionCells (l : Layout) (p : Nat) (blocks : List Block) : Except Error (List Cell) :=
  withTable (place p blocks) (if l.isFixed then [] else (spans p blocks).map (·.stop - p))

/-- **Bytes are those of a body with its table when the table is as wide as a writer makes it.** -/
theorem exists_withTable_iff {body : List Cell} {xs : List Nat} :
    (∃ cs, withTable body xs = .ok cs ∧ Matches cs bs) ↔
      body.length ≤ bs.length ∧ Matches body (bs.take body.length) ∧ IsSnug bs.length xs.length ∧
        bs.drop body.length = table (offsetWidth bs.length) xs ∧ ∀ x ∈ xs, x < 256 ^ offsetWidth bs.length := by
  unfold withTable
  constructor
  · rintro ⟨cs, h, hm⟩
    obtain ⟨tb, htb, rfl⟩ := except_map_eq_ok.1 h
    obtain ⟨hlt, rfl⟩ := tableBytes_eq_ok.1 htb
    obtain ⟨as, tb, rfl, hbody, htable⟩ := matches_append_iff.1 hm
    rw [matches_given_iff] at htable
    subst htable
    have hsize : (((as ++ table (offsetWidth (containerSize body.length xs.length)) xs).length : Nat) : Int) =
        containerSize body.length xs.length := by
      rw [List.length_append, length_table, ← hbody.length_eq, Nat.cast_add, Nat.cast_mul]
      exact (containerSize_eq body.length xs.length).symm
    have hlen := hbody.length_eq
    rw [hsize, List.take_left' hlen.symm, List.drop_left' hlen.symm]
    refine ⟨by rw [List.length_append, hlen]; omega, hbody, (isSnug_iff ?_).2 ?_, rfl, hlt⟩
    · rw [hsize, List.length_append, length_table]
      omega
    · rw [hsize, List.length_append, length_table, Nat.add_sub_cancel, ← hlen]
  · rintro ⟨hle, hbody, hsnug, htable, hlt⟩
    have hlen := congrArg List.length htable
    rw [List.length_drop, length_table] at hlen
    have hbodylen : bs.length - offsetWidth bs.length * xs.length = body.length := by omega
    rw [isSnug_iff (by omega), hbodylen] at hsnug
    rw [hsnug]
    refine ⟨body ++ given (table (offsetWidth bs.length) xs), ?_, ?_⟩
    · rw [tableBytes_eq_ok.2 ⟨hlt, rfl⟩]
      rfl
    · rw [← htable]
      have h := hbody.append (matches_given_iff.2 (rfl : bs.drop body.length = bs.drop body.length))
      rwa [List.take_append_drop] at h

/-- The same for children in a row with a table behind them. -/
theorem exists_placeTable_iff {blocks : List Block} {xs : List Nat} :
    (∃ cs, withTable (place 0 blocks) xs = .ok cs ∧ Matches cs bs) ↔
      (place 0 blocks).length ≤ bs.length ∧
        List.Forall₂ (fun b w => Matches b.2 (w.slice bs)) blocks (spans 0 blocks) ∧ IsSnug bs.length xs.length ∧
          bs.drop (place 0 blocks).length = table (offsetWidth bs.length) xs ∧
            ∀ x ∈ xs, x < 256 ^ offsetWidth bs.length :=
  exists_withTable_iff.trans (and_congr_right fun hle => and_congr_left' (matches_take_place_iff hle))

theorem exists_ok_iff {α : Type} {a : α} {P : α → Prop} :
    (∃ x, (Except.ok a : Except Error α) = .ok x ∧ P x) ↔ P a := by
  simp

/-- **Bytes are those of a tuple exactly when its reader finds each member's window where the member was placed, with
its bytes in it, and the tuple is as large as a writer makes it.** -/
theorem exists_tupleCells_iff {a : Nat} {blocks : List Block} (hne : blocks ≠ []) (hl : ∀ b ∈ blocks, 0 < b.1.alignment)
    (ha : a = tupleAlignment (blocks.map Prod.fst)) (hfit : ∀ b ∈ blocks, b.Fits) :
    (∃ cs, tupleCells a 0 blocks = .ok cs ∧ Matches cs bs) ↔
      windows bs.toArray (blocks.map Prod.fst) = .ok (spans 0 blocks) ∧
        IsSnug bs.length (offsetCount (blocks.map Prod.fst)) ∧
          List.Forall₂ (fun b w => Matches b.2 (w.slice bs)) blocks (spans 0 blocks) := by
  have ht := tiled_spans (p := 0) hfit
  have hlast := lastStop_spans 0 blocks
  rw [Nat.zero_add] at hlast
  rw [windows_eq_ok (by simpa using hne) (by simpa using fun l c hb => hl (l, c) hb), and_iff_right ht, Closes, hlast]
  unfold tupleCells
  simp only [Nat.zero_add, Nat.sub_zero, List.map_id']
  cases hfixed : allFixed (blocks.map Prod.fst) with
  | true =>
    rw [if_pos rfl, if_pos rfl, offsetCount_eq_zero hfixed, and_iff_right (isSnug_zero _), exists_ok_iff,
      matches_append_iff, ← ha]
    constructor
    · rintro ⟨as, pad, rfl, hbody, hpad⟩
      rw [matches_blank_iff] at hpad
      have hlen := hbody.length_eq
      refine ⟨by rw [List.length_append, hpad, ← hlen]; rfl, (matches_take_place_iff ?_).1 ?_⟩
      · rw [List.length_append, hlen]
        omega
      · rwa [hlen, List.take_left]
    · rintro ⟨hlen, hblocks⟩
      have hle := le_alignUp (place 0 blocks).length a
      have hbody := (matches_take_place_iff (by omega)).2 hblocks
      refine ⟨_, _, (List.take_append_drop _ bs).symm, hbody, ?_⟩
      rw [matches_blank_iff, List.length_drop, hlen, alignUp, Nat.add_sub_cancel_left]
  | false =>
    rw [if_neg Bool.false_ne_true, if_neg Bool.false_ne_true, exists_placeTable_iff, List.length_reverse,
      ht.length_recorded]
    simp only [List.mem_reverse]
    constructor
    · rintro ⟨hle, hblocks, hsnug, htable, hlt⟩
      exact ⟨⟨hle, htable, hlt⟩, hsnug, hblocks⟩
    · rintro ⟨⟨hle, htable, hlt⟩, hsnug, hblocks⟩
      exact ⟨hle, hblocks, hsnug, htable, hlt⟩

/-- The number of offsets of an array. -/
def elementCount (l : Layout) (count : Nat) : Nat := if l.isFixed then 0 else count

/-- **The same for an array.** -/
theorem exists_collectionCells_iff {l : Layout} {blocks : List Block} (hl : 0 < l.alignment)
    (hd : ∀ n ∈ l.fixedSize, l.alignment ∣ n) (hz : l.fixedSize = some 0 → blocks = [])
    (hblocks : ∀ b ∈ blocks, b.1 = l) (hfit : ∀ b ∈ blocks, b.Fits) :
    (∃ cs, collectionCells l 0 blocks = .ok cs ∧ Matches cs bs) ↔
      elementWindows bs.toArray l = .ok (spans 0 blocks) ∧ IsSnug bs.length (elementCount l blocks.length) ∧
        List.Forall₂ (fun b w => Matches b.2 (w.slice bs)) blocks (spans 0 blocks) := by
  have ht := tiled_spans (p := 0) hfit
  have hlast := lastStop_spans 0 blocks
  rw [Nat.zero_add] at hlast
  have hls : blocks.map Prod.fst = List.replicate (spans 0 blocks).length l := by
    rw [List.eq_replicate_iff, List.length_map, length_spans]
    exact ⟨rfl, by simpa using fun c d hb => hblocks (c, d) hb⟩
  rw [hls] at ht
  unfold collectionCells elementCount
  rw [exists_placeTable_iff]
  cases hn : l.fixedSize with
  | some n =>
    have hfixed : l.isFixed = true := by rw [Layout.isFixed, hn]; rfl
    rw [elementWindows_fixed hn (hd n hn), and_iff_right ht, hlast, hfixed, if_pos rfl, if_pos rfl]
    have hzero : n = 0 → spans 0 blocks = [] := fun h0 => by rw [hz (by rw [hn, h0]), spans]
    simp only [List.length_nil, isSnug_zero, true_and, List.not_mem_nil, false_implies, implies_true, and_true]
    rw [and_iff_left hzero]
    constructor
    · rintro ⟨hle, hblocks, htable⟩
      have hlen := congrArg List.length htable
      rw [List.length_drop, length_table, List.length_nil, Nat.mul_zero] at hlen
      exact ⟨by omega, hblocks⟩
    · rintro ⟨hlen, hblocks⟩
      exact ⟨by omega, hblocks, by rw [← hlen, List.drop_length]; rfl⟩
  | none =>
    have hvar : l.isFixed = false := by rw [Layout.isFixed, hn]; rfl
    rw [elementWindows_variable hl hn, and_iff_right ht, hlast, hvar, if_neg Bool.false_ne_true,
      if_neg Bool.false_ne_true]
    simp only [Nat.sub_zero, List.length_map, length_spans]
    constructor
    · rintro ⟨hle, hblocks, hsnug, htable, hlt⟩
      refine ⟨⟨fun hne hnil => ?_, hle, htable, hlt⟩, hsnug, hblocks⟩
      -- a container without bytes has no offsets
      subst hnil
      have hcount : blocks.length ≠ 0 := by
        rw [← length_spans 0]
        exact mt List.length_eq_zero_iff.1 hne
      rcases hsnug with h0 | ⟨h0, -⟩
      · exact hcount h0
      · exact absurd h0 (lt_irrefl 0)
    · rintro ⟨⟨-, hle, htable, hlt⟩, hsnug, hblocks⟩
      exact ⟨hle, hblocks, hsnug, htable, hlt⟩

/-! ## Writing -/

variable {α : Type}

/-- The blocks of children, from their cells. -/
def blocksOf (f : α → Except Error (List Cell)) : List (Layout × α) → Except Error (List Block)
  | [] => .ok []
  | (l, x) :: children => do
    let cs ← f x
    let blocks ← blocksOf f children
    return (l, cs) :: blocks

theorem blocksOf_eq_ok {f : α → Except Error (List Cell)} : ∀ {children : List (Layout × α)} {blocks : List Block},
    blocksOf f children = .ok blocks ↔ List.Forall₂ (fun c b => b.1 = c.1 ∧ f c.2 = .ok b.2) children blocks
  | [], blocks => by
    rw [blocksOf, List.forall₂_nil_left_iff, Except.ok.injEq, eq_comm]
  | (l, x) :: children, blocks => by
    rw [blocksOf, List.forall₂_cons_left_iff]
    simp only [except_bind_eq_ok, pure, Except.pure, Except.ok.injEq, blocksOf_eq_ok]
    constructor
    · rintro ⟨cs, h1, blocks, h2, rfl⟩
      exact ⟨(l, cs), blocks, ⟨rfl, h1⟩, h2, rfl⟩
    · rintro ⟨⟨_, cs⟩, blocks, ⟨rfl, h1⟩, h2, rfl⟩
      exact ⟨cs, h1, blocks, h2, rfl⟩

theorem map_fst_of_blocksOf {f : α → Except Error (List Cell)} {children : List (Layout × α)} {blocks : List Block}
    (h : blocksOf f children = .ok blocks) : blocks.map Prod.fst = children.map Prod.fst := by
  rw [blocksOf_eq_ok] at h
  induction h with
  | nil => rfl
  | cons h _ ih => rw [List.map_cons, List.map_cons, ih, h.1]

theorem exists_of_mem_blocksOf {f : α → Except Error (List Cell)} {children : List (Layout × α)} {blocks : List Block}
    (h : blocksOf f children = .ok blocks) {c : Layout × α} (hc : c ∈ children) : ∃ cs, f c.2 = .ok cs := by
  rw [blocksOf_eq_ok] at h
  induction h with
  | nil => cases hc
  | @cons d b children blocks h _ ih =>
    rcases List.mem_cons.1 hc with rfl | hc
    · exact ⟨b.2, h.2⟩
    · exact ih hc

theorem fits_of_blocksOf {f : α → Except Error (List Cell)} {children : List (Layout × α)} {blocks : List Block}
    (hb : blocksOf f children = .ok blocks)
    (hf : ∀ c ∈ children, ∀ n ∈ c.1.fixedSize, ∀ cs, f c.2 = .ok cs → cs.length = n) : ∀ b ∈ blocks, b.Fits := by
  rw [blocksOf_eq_ok] at hb
  induction hb with
  | nil => exact nofun
  | @cons c b children blocks h _ ih =>
    refine List.forall_mem_cons.2 ⟨fun n hn => ?_, ih fun c hc => hf c (List.mem_cons_of_mem _ hc)⟩
    rw [h.1] at hn
    exact hf c (List.mem_cons_self ..) n hn b.2 h.2

/-- How a child is written: its padding, then its cells. -/
def Pads (put : α → Put Unit) (f : α → Except Error (List Cell)) (child : Layout × α) : Prop :=
  Lays (put child.2) fun p => cellsOnly ((f child.2).map (blank (padTo p child.1.alignment) ++ ·))

variable {put : α → Put Unit} {f : α → Except Error (List Cell)}

theorem add_length_padded (p a : Nat) (cs : List Cell) :
    p + (blank (padTo p a) ++ cs).length = alignUp p a + cs.length := by
  rw [List.length_append, length_blank, alignUp, Nat.add_assoc]

/-- A child at its next aligned position. -/
theorem lays_child {child : Layout × α} (hl : child.1.alignment ∣ 8) (h : Pads put f child) :
    Lays (do Put.pad child.1.alignment; put child.2) fun p =>
      cellsOnly ((f child.2).map (blank (padTo p child.1.alignment) ++ ·)) := by
  refine ((lays_pad hl).andThen h).congr fun p => ?_
  have hdvd := dvd_add_padTo (p : Int) (pos_of_dvd_eight hl)
  have hzero : padTo (p + padTo p child.1.alignment : Nat) child.1.alignment = 0 :=
    padTo_of_dvd (by rw [Nat.cast_add]; exact hdvd)
  simp only [follow, bind, Except.bind, length_blank, hzero, blank_zero, List.nil_append]
  cases f child.2 <;> rfl

theorem lays_putMembers (start : Nat) :
    ∀ {members : List (Layout × α)}, (∀ m ∈ members, m.1.alignment ∣ 8 ∧ Pads put f m) →
    Lays (putMembers put start members) fun p => do
      let blocks ← blocksOf f members
      return ((recorded (blocks.map Prod.fst) (spans p blocks)).map (fun e : Nat => (e : Int) - start), place p blocks)
  | [], _ => lays_pure []
  | (l, x) :: members, h => by
    obtain ⟨hl, hx⟩ := h (l, x) (List.mem_cons_self ..)
    have ih := lays_putMembers start fun m hm => h m (List.mem_cons_of_mem _ hm)
    have hrun := (lays_child hl hx).bind fun _ => lays_position.bind fun stop => ih.bind fun ends =>
      lays_pure (if l.isFixed || members.isEmpty then ends else ((stop : Int) - start) :: ends)
    have hput : putMembers put start ((l, x) :: members) = (do
        (do Put.pad l.alignment; put x : Put Unit)
        let stop : Nat ← Put.position
        let ends ← putMembers put start members
        return if l.isFixed || members.isEmpty then ends else ((stop : Int) - start) :: ends) := by
      simp only [putMembers, bind_assoc, pure_bind]
    rw [hput]
    refine hrun.congr fun p => ?_
    rw [blocksOf]
    cases hf : f x with
    | error e => rfl
    | ok cs =>
      cases hb : blocksOf f members with
      | error e => simp only [cellsOnly, Except.map, bind, Except.bind]
      | ok blocks =>
        have hls := map_fst_of_blocksOf hb
        have hp := add_length_padded p l.alignment cs
        have hempty : (members.map Prod.fst).isEmpty = members.isEmpty := List.isEmpty_map
        simp only [cellsOnly, Except.map, bind, Except.bind, pure, Except.pure, List.length_nil, Nat.add_zero, hp,
          List.append_nil, List.nil_append, List.map_cons, spans, recorded, place, hls, hempty, List.append_assoc]
        split <;> rfl

theorem lays_putElements {l : Layout} (hl : l.alignment ∣ 8) (start : Nat) : ∀ {items : List α} (ends : List Int),
    (∀ x ∈ items, Pads put f (l, x)) →
      Lays (putElements put l.alignment start ends items) fun p => do
        let blocks ← blocksOf f (items.map (l, ·))
        return (ends.reverse ++ (spans p blocks).map (fun w => (w.stop : Int) - start), place p blocks)
  | [], ends, _ => by
    refine (lays_pure ends.reverse).congr fun p => ?_
    rw [List.map_nil, blocksOf]
    exact congrArg (fun e => Except.ok (e, [])) (List.append_nil _).symm
  | x :: items, ends, h => by
    have hchild : ((l, x) : Layout × α).1.alignment ∣ 8 := hl
    have hx := lays_child hchild (h x (List.mem_cons_self ..))
    have ih := fun stop : Nat =>
      lays_putElements hl start (((stop : Int) - start) :: ends) fun y hy => h y (List.mem_cons_of_mem x hy)
    have hput : putElements put l.alignment start ends (x :: items) = (do
        (do Put.pad l.alignment; put x : Put Unit)
        let stop : Nat ← Put.position
        putElements put l.alignment start (((stop : Int) - start) :: ends) items) := by
      simp only [putElements, bind_assoc, pure_bind]
    rw [hput]
    refine (hx.bind fun _ => lays_position.bind ih).congr fun p => ?_
    rw [List.map_cons, blocksOf]
    cases hf : f x with
    | error e => rfl
    | ok cs =>
      cases hb : blocksOf f (items.map (l, ·)) with
      | error e => simp only [cellsOnly, Except.map, bind, Except.bind]
      | ok blocks =>
        have hp := add_length_padded p l.alignment cs
        simp only [cellsOnly, Except.map, bind, Except.bind, pure, Except.pure, List.length_nil, Nat.add_zero, hp,
          List.nil_append, List.map_cons, spans, place, List.append_assoc, List.reverse_cons, List.singleton_append]

theorem le_stop_of_mem_spans {w : Window} : ∀ {p : Nat} {blocks : List Block}, w ∈ spans p blocks → p ≤ w.stop
  | p, (l, cs) :: blocks, h => by
    have hle := le_alignUp p l.alignment
    rcases List.mem_cons.1 h with rfl | h
    · exact le_trans hle (Nat.le_add_right ..)
    · have := le_stop_of_mem_spans h
      omega

theorem mem_recorded {x : Nat} : ∀ {ls : List Layout} {ws : List Window}, x ∈ recorded ls ws → ∃ w ∈ ws, x = w.stop
  | l :: ls, w :: ws, h => by
    rw [recorded] at h
    split at h
    · obtain ⟨v, hv, rfl⟩ := mem_recorded h
      exact ⟨v, List.mem_cons_of_mem w hv, rfl⟩
    · rcases List.mem_cons.1 h with rfl | h
      · exact ⟨w, List.mem_cons_self .., rfl⟩
      · obtain ⟨v, hv, rfl⟩ := mem_recorded h
        exact ⟨v, List.mem_cons_of_mem w hv, rfl⟩

/-- Ends counted from the start of the container. -/
theorem map_sub_start {p : Nat} {xs : List Nat} (h : ∀ x ∈ xs, p ≤ x) :
    xs.map (fun x : Nat => (x : Int) - p) = (xs.map (· - p)).map Int.ofNat := by
  rw [List.map_map]
  refine List.map_congr_left fun x hx => ?_
  have := h x hx
  simp only [Function.comp_apply, Int.ofNat_eq_natCast]
  omega

theorem lays_putOffsets (ends : List Int) (n : Int) :
    Emits (putOffsets ends n) (offsetsBytes (offsetWidth (containerSize n ends.length)) ends) :=
  emits_forEach_putOffset _ ends

/-- The table is the same from any start, for its offsets are counted from there. -/
theorem offsetsBytes_ends {p n : Nat} {xs : List Nat} (h : ∀ x ∈ xs, p ≤ x) :
    offsetsBytes (offsetWidth (containerSize ((p + n : Nat) - p) (xs.map fun x : Nat => (x : Int) - p).length))
        (xs.map fun x : Nat => (x : Int) - p) =
      tableBytes (offsetWidth (containerSize n (xs.map (· - p)).length)) (xs.map (· - p)) := by
  have hn : ((p + n : Nat) : Int) - p = n := by omega
  rw [hn, map_sub_start h, offsetsBytes_natCast, List.length_map]

/-- **A tuple is written as its members and what follows them.** -/
theorem lays_putTuple {a : Nat} (ha : a ∣ 8) {members : List (Layout × α)}
    (h : ∀ m ∈ members, m.1.alignment ∣ 8 ∧ Pads put f m) :
    Lays (putTuple put a members) fun p => cellsOnly (do
      let blocks ← blocksOf f members
      tupleCells a p blocks) := by
  have htail (start stop : Nat) (ends : List Int) : Lays
      (if allFixed (members.map Prod.fst) then Put.pad a else putOffsets ends.reverse ((stop : Int) - start)) fun p =>
        cellsOnly (if allFixed (members.map Prod.fst) then .ok (blank (padTo p a)) else
          (offsetsBytes (offsetWidth (containerSize ((stop : Int) - start) ends.reverse.length))
            ends.reverse).map given) := by
    split
    · exact lays_pad ha
    · exact lays_putOffsets _ _
  have hrun := lays_position.bind fun start => (lays_putMembers start h).bind fun ends =>
    lays_position.bind fun stop => htail start stop ends
  have hput : putTuple put a members = (do
      let start : Nat ← Put.position
      let ends ← putMembers put start members
      let stop : Nat ← Put.position
      if allFixed (members.map Prod.fst) then Put.pad a else putOffsets ends.reverse ((stop : Int) - start)) := by
    simp only [putTuple, pure_bind, bind_assoc]
  rw [hput]
  refine hrun.congr fun p => ?_
  cases hb : blocksOf f members with
  | error e => simp only [cellsOnly, Except.map, bind, Except.bind]
  | ok blocks =>
    have hls := map_fst_of_blocksOf hb
    have hle : ∀ x ∈ (recorded (members.map Prod.fst) (spans p blocks)).reverse, p ≤ x := by
      intro x hx
      obtain ⟨w, hw, rfl⟩ := mem_recorded (List.mem_reverse.1 hx)
      exact le_stop_of_mem_spans hw
    simp only [cellsOnly, Except.map, bind, Except.bind, pure, Except.pure, List.length_nil, Nat.add_zero,
      List.nil_append, tupleCells, hls, ← List.map_reverse, offsetsBytes_ends hle, withTable]
    cases allFixed (members.map Prod.fst) with
    | true => rfl
    | false => cases tableBytes _ _ <;> rfl

/-- **An array is written as its elements and their table.** -/
theorem lays_putCollection {l : Layout} (hl : l.alignment ∣ 8) {items : List α} (h : ∀ x ∈ items, Pads put f (l, x)) :
    Lays (putCollection put l items) fun p => cellsOnly (do
      let blocks ← blocksOf f (items.map (l, ·))
      collectionCells l p blocks) := by
  have hrun := lays_position.bind fun start => (lays_putElements hl start [] h).bind fun ends =>
    lays_position.bind fun stop => lays_putOffsets (if l.isFixed then [] else ends) ((stop : Int) - start)
  have hput : putCollection put l items = (do
      let start : Nat ← Put.position
      let ends ← putElements put l.alignment start [] items
      let stop : Nat ← Put.position
      putOffsets (if l.isFixed then [] else ends) ((stop : Int) - start)) := by
    simp only [putCollection, pure_bind, bind_assoc]
  rw [hput]
  refine hrun.congr fun p => ?_
  cases hb : blocksOf f (items.map (l, ·)) with
  | error e => simp only [cellsOnly, Except.map, bind, Except.bind]
  | ok blocks =>
    let stops := if l.isFixed then [] else (spans p blocks).map Window.stop
    have hle : ∀ x ∈ stops, p ≤ x := by
      intro x hx
      simp only [stops] at hx
      split at hx
      · cases hx
      · obtain ⟨w, hw, rfl⟩ := List.mem_map.1 hx
        exact le_stop_of_mem_spans hw
    have hmap {β : Type} (g : Nat → β) :
        (if l.isFixed then [] else (spans p blocks).map fun w => g w.stop) = stops.map g := by
      simp only [stops]
      split
      · rfl
      · rw [List.map_map]
        rfl
    have hint := hmap fun x => (x : Int) - p
    have hnat := hmap fun x => x - p
    simp only [cellsOnly, Except.map, bind, Except.bind, pure, Except.pure, List.length_nil, Nat.add_zero,
      List.nil_append, collectionCells, List.reverse_nil, hint, hnat, offsetsBytes_ends hle, withTable]
    cases tableBytes _ _ <;> rfl

/-! ## Any aligned start will do -/

/-- A window moved by a number of bytes. -/
def Window.shift (n : Nat) (w : Window) : Window := ⟨n + w.start, n + w.stop⟩

variable {s : Nat}

theorem alignUp_add_of_dvd {a : Nat} (h : a ∣ s) (p : Nat) : alignUp (s + p) a = s + alignUp p a := by
  rw [alignUp, Nat.cast_add, padTo_add_of_dvd (Int.natCast_dvd_natCast.2 h), alignUp, Nat.add_assoc]

theorem place_of_dvd : ∀ {p : Nat} {blocks : List Block}, (∀ b ∈ blocks, b.1.alignment ∣ s) →
    place (s + p) blocks = place p blocks
  | _, [], _ => rfl
  | p, (l, cs) :: blocks, h => by
    have hl := h (l, cs) (List.mem_cons_self ..)
    rw [place, place, alignUp_add_of_dvd hl, Nat.cast_add, padTo_add_of_dvd (Int.natCast_dvd_natCast.2 hl),
      Nat.add_assoc, place_of_dvd fun b hb => h b (List.mem_cons_of_mem _ hb)]

theorem spans_of_dvd : ∀ {p : Nat} {blocks : List Block}, (∀ b ∈ blocks, b.1.alignment ∣ s) →
    spans (s + p) blocks = (spans p blocks).map (Window.shift s)
  | _, [], _ => rfl
  | p, (l, cs) :: blocks, h => by
    rw [spans, spans, alignUp_add_of_dvd (h (l, cs) (List.mem_cons_self ..)), Nat.add_assoc,
      spans_of_dvd fun b hb => h b (List.mem_cons_of_mem _ hb)]
    rfl

theorem recorded_shift : ∀ (ls : List Layout) (ws : List Window),
    recorded ls (ws.map (Window.shift s)) = (recorded ls ws).map (s + ·)
  | [], _ => rfl
  | _ :: _, [] => rfl
  | l :: ls, w :: ws => by
    rw [List.map_cons, recorded, recorded, recorded_shift ls ws]
    split <;> rfl

theorem map_add_sub (s : Nat) (xs : List Nat) : (xs.map (s + ·)).map (· - s) = xs.map (· - 0) := by
  rw [List.map_map]
  refine List.map_congr_left fun x _ => ?_
  simp only [Function.comp_apply]
  omega

/-- **A tuple is laid out in the same way at every aligned position.** -/
theorem tupleCells_of_dvd {a : Nat} {blocks : List Block} (ha : a ∣ s) (h : ∀ b ∈ blocks, b.1.alignment ∣ s) :
    tupleCells a s blocks = tupleCells a 0 blocks := by
  have hplace := place_of_dvd (p := 0) h
  have hspans := spans_of_dvd (p := 0) h
  rw [Nat.add_zero] at hplace hspans
  rw [tupleCells, tupleCells, hplace, hspans, recorded_shift, map_add_sub, Nat.cast_add,
    padTo_add_of_dvd (Int.natCast_dvd_natCast.2 ha), Nat.zero_add]

theorem collectionCells_of_dvd {l : Layout} {blocks : List Block} (h : ∀ b ∈ blocks, b.1.alignment ∣ s) :
    collectionCells l s blocks = collectionCells l 0 blocks := by
  have hplace := place_of_dvd (p := 0) h
  have hspans := spans_of_dvd (p := 0) h
  rw [Nat.add_zero] at hplace hspans
  have hstops : (spans s blocks).map (fun w => w.stop - s) = (spans 0 blocks).map fun w => w.stop - 0 := by
    rw [hspans, List.map_map]
    refine List.map_congr_left fun w _ => ?_
    simp only [Function.comp_apply, Window.shift]
    omega
  rw [collectionCells, collectionCells, hplace, hstops]

end Marshal.Framing
