import Marshal.Framing.Collection
import Marshal.Framing.Tuple
import Marshal.Proofs.Alignment
import Marshal.Proofs.Framing.Tables
/-!
# Where a container's children are

`Tiled` says how the windows of children follow one another: each starts at the next aligned position behind the last.
The two readers of frames, which go through the table from its end or from its start, accept exactly the tiled windows
whose recorded stops are the bytes of the table (`windows_eq_ok`, `elementWindows_fixed`,
`elementWindows_variable`).
-/
namespace Marshal.Framing

/-- Windows that follow one another from a position on, with nothing but padding between them. -/
def Tiled : Nat → List Layout → List Window → Prop
  | _, [], [] => True
  | p, l :: ls, w :: ws =>
    w.start = alignUp p l.alignment ∧ w.start ≤ w.stop ∧ (∀ n ∈ l.fixedSize, w.stop = w.start + n) ∧ Tiled w.stop ls ws
  | _, _, _ => False

/-- The end of windows that follow one another from a position on. -/
def lastStop : Nat → List Window → Nat
  | p, [] => p
  | _, w :: ws => lastStop w.stop ws

/-- The stops that belong into the table of a tuple, in the order of the members. -/
def recorded : List Layout → List Window → List Nat
  | l :: ls, w :: ws => if l.isFixed || ls.isEmpty then recorded ls ws else w.stop :: recorded ls ws
  | _, _ => []

theorem lastStop_eq : ∀ (p : Nat) (ws : List Window), (ws.getLast?.map Window.stop).getD p = lastStop p ws
  | _, [] => rfl
  | _, [_] => rfl
  | p, w :: v :: ws => by
    rw [List.getLast?_cons_cons, lastStop, ← lastStop_eq w.stop (v :: ws)]
    cases h : (v :: ws).getLast? with
    | none => simp at h
    | some x => rfl

theorem offsetCount_cons_cons (l k : Layout) (ls : List Layout) :
    offsetCount (l :: k :: ls) = offsetCount (k :: ls) + if l.isFixed then 0 else 1 := by
  rw [offsetCount, List.dropLast_cons_cons, List.countP_cons, ← offsetCount]
  cases l.isFixed <;> rfl

theorem recorded_cons_cons (l k : Layout) (ls : List Layout) (w : Window) (ws : List Window) :
    recorded (l :: k :: ls) (w :: ws) =
      if l.isFixed then recorded (k :: ls) ws else w.stop :: recorded (k :: ls) ws := by
  rw [recorded, List.isEmpty_cons, Bool.or_false]

namespace Tiled

theorem length_eq : ∀ {p : Nat} {ls : List Layout} {ws : List Window}, Tiled p ls ws → ls.length = ws.length
  | _, [], [], _ => rfl
  | _, _ :: _, _ :: _, h => congrArg (· + 1) h.2.2.2.length_eq

theorem le_lastStop : ∀ {p : Nat} {ls : List Layout} {ws : List Window}, Tiled p ls ws → p ≤ lastStop p ws
  | _, [], [], _ => le_rfl
  | p, l :: _, _ :: _, ⟨h1, h2, _, h⟩ => by
    have h3 := le_alignUp p l.alignment
    have h4 := h.le_lastStop
    rw [lastStop]
    omega

theorem stop_le_lastStop {w : Window} : ∀ {p : Nat} {ls : List Layout} {ws : List Window}, Tiled p ls ws → w ∈ ws →
    w.stop ≤ lastStop p ws
  | _, [], [], _, hw => by cases hw
  | _, _ :: _, _ :: _, ⟨_, _, _, h⟩, hw => by
    rcases List.mem_cons.1 hw with rfl | hw
    · exact h.le_lastStop
    · exact h.stop_le_lastStop hw

theorem length_recorded : ∀ {p : Nat} {ls : List Layout} {ws : List Window}, Tiled p ls ws →
    (recorded ls ws).length = offsetCount ls
  | _, [], [], _ => rfl
  | _, [l], [w], _ => by simp [recorded, offsetCount]
  | p, l :: k :: ls, w :: ws, ⟨_, _, _, h⟩ => by
    have ih := h.length_recorded
    rw [recorded_cons_cons, offsetCount_cons_cons, ← ih]
    cases l.isFixed <;> rfl

end Tiled

/-! ## Tuples -/

variable {bs : List UInt8} {f : TupleFrame}

theorem windowsFrom_cons {index used p : Nat} {l : Layout} {ls : List Layout} {ws : List Window}
    (hl : 0 < l.alignment) :
    windowsFrom f bs.toArray index used p (l :: ls) = .ok ws ↔
      ∃ stop ws', memberStop f bs.toArray index used (alignUp p l.alignment) ls.isEmpty l = .ok stop ∧
        alignUp p l.alignment ≤ stop ∧ stop ≤ f.tableStart ∧
        windowsFrom f bs.toArray (index + 1) (if l.isFixed || ls.isEmpty then used else used + 1) stop ls = .ok ws' ∧
        ws = ⟨alignUp p l.alignment, stop⟩ :: ws' := by
  rw [windowsFrom, if_neg hl.ne']
  simp only [except_bind_eq_ok, mapError_eq_ok]
  constructor
  · rintro ⟨stop, h1, h2⟩
    split at h2
    · cases h2
    rename_i h3
    obtain ⟨ws', h4, h5⟩ := except_bind_eq_ok.1 h2
    exact ⟨stop, ws', h1, by omega, by omega, h4, (Except.ok.inj h5).symm⟩
  · rintro ⟨stop, ws', h1, h2, h3, h4, rfl⟩
    refine ⟨stop, h1, ?_⟩
    rw [if_neg (by omega)]
    exact except_bind_eq_ok.2 ⟨ws', h4, rfl⟩

theorem memberStop_fixed {index used start n stop : Nat} {last : Bool} {l : Layout} (hn : l.fixedSize = some n) :
    memberStop f bs.toArray index used start last l = .ok stop ↔
      stop = start + n ∧ (f.isFixed = true → start + n ≤ f.size) := by
  rw [memberStop, hn]
  simp only
  split
  · rename_i h
    simp only [Bool.and_eq_true, decide_eq_true_eq] at h
    simp only [reduceCtorEq, h.1, true_implies, false_iff]
    omega
  · rename_i h
    simp only [Bool.and_eq_true, decide_eq_true_eq, not_and] at h
    simp only [Except.ok.injEq]
    constructor
    · rintro rfl
      exact ⟨rfl, fun hf => by have := h hf; omega⟩
    · exact fun h => h.1.symm

theorem fixedSize_eq_none {l : Layout} (h : l.isFixed = false) : l.fixedSize = none := by
  rwa [Layout.isFixed, Option.isSome_eq_false_iff, Option.isNone_iff_eq_none] at h

theorem memberStop_last {index used start stop : Nat} {l : Layout} (hl : l.isFixed = false) :
    memberStop f bs.toArray index used start true l = .ok stop ↔ stop = f.tableStart := by
  rw [memberStop, fixedSize_eq_none hl]
  simp only [if_true, Except.ok.injEq, eq_comm]

/-- Where a member's offset stands in the table, which is read from its end. -/
def memberEntry (f : TupleFrame) (bs : List UInt8) (used : Nat) : Nat :=
  entry f.offsetWidth bs (f.size - f.offsetWidth * (used + 1))

theorem memberStop_variable {index used start stop : Nat} {l : Layout} (hl : l.isFixed = false)
    (hs : f.size = bs.length) (hu : f.offsetWidth * (used + 1) ≤ f.size) :
    memberStop f bs.toArray index used start false l = .ok stop ↔ stop = memberEntry f bs used := by
  have hp : (f.size : Int) - f.offsetWidth * (used + 1) = (f.size - f.offsetWidth * (used + 1) : Nat) := by
    rw [Nat.cast_sub hu]
    push_cast
    rfl
  rw [Nat.mul_succ] at hu
  rw [memberStop, fixedSize_eq_none hl]
  simp only [Bool.false_eq_true, if_false, hp]
  rw [offsetAt_eq (by rw [Nat.mul_succ]; omega), Except.ok.injEq, eq_comm, memberEntry]

theorem windowsFrom_singleton_eq_ok {index used p : Nat} {l : Layout} {ws : List Window} (hl : 0 < l.alignment)
    (hf : f.tableStart ≤ f.size) :
    windowsFrom f bs.toArray index used p [l] = .ok ws ↔
      Tiled p [l] ws ∧ (∀ w ∈ ws, w.stop ≤ f.tableStart) ∧ (l.isFixed = false → lastStop p ws = f.tableStart) := by
  rw [windowsFrom_cons hl]
  constructor
  · rintro ⟨stop, ws', h1, h2, h3, h4, rfl⟩
    cases h4
    refine ⟨⟨rfl, h2, fun n hn => ((memberStop_fixed hn).1 h1).1, trivial⟩, by simpa using h3, fun hfixed => ?_⟩
    exact (memberStop_last hfixed).1 h1
  · rintro ⟨ht, hle, hlast⟩
    obtain ⟨w, rfl⟩ := List.length_eq_one_iff.1 ht.length_eq.symm
    obtain ⟨h1, h2, h3, -⟩ := ht
    have hstop := hle w (List.mem_singleton_self w)
    refine ⟨w.stop, [], ?_, by omega, hstop, rfl, by rw [← h1]⟩
    cases hfixed : l.isFixed with
    | false => exact (memberStop_last hfixed).2 (hlast hfixed)
    | true =>
      obtain ⟨n, hn⟩ := Option.isSome_iff_exists.1 hfixed
      have := h3 n hn
      exact (memberStop_fixed hn).2 ⟨by omega, by omega⟩

/-- **The reader of a tuple finds tiled windows**, whose recorded stops stand in the table from its end on. -/
theorem windowsFrom_eq_ok (hs : f.size = bs.length) (hf : f.tableStart ≤ f.size) :
    ∀ {ls : List Layout} {ws : List Window} {index used p : Nat},
    (∀ l ∈ ls, 0 < l.alignment) → f.offsetWidth * (used + offsetCount ls) ≤ f.size →
    (windowsFrom f bs.toArray index used p ls = .ok ws ↔
      Tiled p ls ws ∧ (∀ w ∈ ws, w.stop ≤ f.tableStart) ∧
        recorded ls ws = (List.range' used (offsetCount ls)).map (memberEntry f bs) ∧
        (∀ l ∈ ls.getLast?, l.isFixed = false → lastStop p ws = f.tableStart))
  | [], ws, index, used, p, _, _ => by
    rw [windowsFrom, Except.ok.injEq]
    constructor
    · rintro rfl
      exact ⟨trivial, nofun, rfl, nofun⟩
    · rintro ⟨h, -⟩
      exact (List.length_eq_zero_iff.1 h.length_eq.symm).symm
  | [l], ws, index, used, p, hl, hu => by
    rw [windowsFrom_singleton_eq_ok (hl l (List.mem_singleton_self l)) hf]
    have hlast : (∀ k ∈ [l].getLast?, k.isFixed = false → lastStop p ws = f.tableStart) ↔
        (l.isFixed = false → lastStop p ws = f.tableStart) := by simp
    rw [hlast]
    constructor
    · rintro ⟨ht, hle, h⟩
      have hcount : offsetCount [l] = 0 := rfl
      have hrec := ht.length_recorded
      rw [hcount, List.length_eq_zero_iff] at hrec
      exact ⟨ht, hle, by rw [hrec, hcount]; rfl, h⟩
    · rintro ⟨ht, hle, -, h⟩
      exact ⟨ht, hle, h⟩
  | l :: k :: ls, ws, index, used, p, hl, hu => by
    rw [windowsFrom_cons (hl l (List.mem_cons_self ..)), List.isEmpty_cons]
    have hl' : ∀ m ∈ k :: ls, 0 < m.alignment := fun m hm => hl m (List.mem_cons_of_mem l hm)
    rw [offsetCount_cons_cons] at hu ⊢
    cases hfixed : l.isFixed with
    | true =>
      obtain ⟨n, hn⟩ := Option.isSome_iff_exists.1 hfixed
      simp only [hfixed, if_true, Nat.add_zero, Bool.true_or] at hu ⊢
      simp only [memberStop_fixed hn, windowsFrom_eq_ok hs hf hl' hu, List.getLast?_cons_cons]
      constructor
      · rintro ⟨_, ws', ⟨rfl, -⟩, h1, h2, ⟨h3, h4, h5, h6⟩, rfl⟩
        refine ⟨⟨rfl, h1, fun m hm => ?_, h3⟩, List.forall_mem_cons.2 ⟨h2, h4⟩, ?_, h6⟩
        · rw [Option.mem_def, hn] at hm
          cases hm
          rfl
        · rwa [recorded_cons_cons, hfixed, if_pos rfl]
      · rintro ⟨ht, hle, hrec, hlast⟩
        cases ws with
        | nil => exact ht.elim
        | cons w ws' =>
          obtain ⟨h1, h2, h3, h4⟩ := ht
          obtain ⟨h5, h6⟩ := List.forall_mem_cons.1 hle
          have hstop := h3 n hn
          rw [recorded_cons_cons, hfixed, if_pos rfl] at hrec
          exact ⟨w.stop, ws', ⟨by omega, by omega⟩, by omega, h5, ⟨h4, h6, hrec, hlast⟩, by rw [← h1]⟩
    | false =>
      simp only [hfixed, Bool.false_eq_true, if_false, Bool.or_false] at hu ⊢
      have hu' : f.offsetWidth * (used + 1 + offsetCount (k :: ls)) ≤ f.size := by
        rwa [Nat.add_right_comm, Nat.add_assoc]
      have hu1 : f.offsetWidth * (used + 1) ≤ f.size := le_trans (Nat.mul_le_mul_left _ (by omega)) hu'
      simp only [memberStop_variable hfixed hs hu1, windowsFrom_eq_ok hs hf hl' hu', List.getLast?_cons_cons,
        List.range'_succ, List.map_cons]
      constructor
      · rintro ⟨_, ws', rfl, h1, h2, ⟨h3, h4, h5, h6⟩, rfl⟩
        refine ⟨⟨rfl, h1, fun m hm => ?_, h3⟩, List.forall_mem_cons.2 ⟨h2, h4⟩, ?_, h6⟩
        · rw [fixedSize_eq_none hfixed] at hm
          cases hm
        · rw [recorded_cons_cons, hfixed, if_neg Bool.false_ne_true, h5]
      · rintro ⟨ht, hle, hrec, hlast⟩
        cases ws with
        | nil => exact ht.elim
        | cons w ws' =>
          obtain ⟨h1, h2, h3, h4⟩ := ht
          obtain ⟨h5, h6⟩ := List.forall_mem_cons.1 hle
          rw [recorded_cons_cons, hfixed, if_neg Bool.false_ne_true, List.cons.injEq] at hrec
          exact ⟨w.stop, ws', hrec.1, by omega, h5, ⟨h4, h6, hrec.2, hlast⟩, by rw [← h1]⟩

/-- What stands behind the members of a tuple: padding when all have a fixed size, the table otherwise. -/
def Closes (ls : List Layout) (ws : List Window) (bs : List UInt8) : Prop :=
  if allFixed ls then bs.length = alignUp (lastStop 0 ws) (tupleAlignment ls)
  else
    let w := offsetWidth bs.length
    lastStop 0 ws ≤ bs.length ∧ bs.drop (lastStop 0 ws) = table w (recorded ls ws).reverse ∧
      ∀ x ∈ recorded ls ws, x < 256 ^ w

theorem offsetCount_eq_zero {ls : List Layout} (h : allFixed ls = true) : offsetCount ls = 0 := by
  rw [offsetCount, List.countP_eq_zero]
  intro l hl
  rw [List.all_eq_true.1 h l (List.dropLast_subset ls hl)]
  exact Bool.false_ne_true

theorem checkEnd_eq_ok {ls : List Layout} {stop : Nat} :
    checkEnd f ls stop = .ok () ↔
      if f.isFixed then f.size = alignUp stop (tupleAlignment ls) else stop = f.tableStart := by
  unfold checkEnd
  cases f.isFixed with
  | true =>
    simp only [if_true]
    split
    · simp only [reduceCtorEq, false_iff]
      omega
    split
    · simp only [reduceCtorEq, false_iff]
      omega
    · simp only [true_iff]
      omega
  | false =>
    simp only [Bool.false_eq_true, if_false]
    split
    · simp only [reduceCtorEq, false_iff]
      assumption
    · simp only [true_iff]
      omega

/-- A table that closes a tuple is not longer than the tuple. -/
theorem Closes.table_le {ls : List Layout} {ws : List Window} (ht : Tiled 0 ls ws) (h : Closes ls ws bs) :
    offsetWidth bs.length * offsetCount ls ≤ bs.length := by
  unfold Closes at h
  split at h
  · rename_i hfixed
    rw [offsetCount_eq_zero hfixed, Nat.mul_zero]
    exact Nat.zero_le _
  · have hlen := congrArg List.length h.2.1
    rw [List.length_drop, length_table, List.length_reverse, ht.length_recorded] at hlen
    omega

/-- The frame of a tuple that takes the whole of some bytes. -/
def tupleFrame (bs : List UInt8) (ls : List Layout) : TupleFrame :=
  let width := offsetWidth bs.length
  ⟨bs.length, width, bs.length - width * offsetCount ls, allFixed ls⟩

theorem windows_eq_ok_iff {ls : List Layout} {ws : List Window} (hls : ls ≠ []) :
    windows bs.toArray ls = .ok ws ↔ offsetWidth bs.length * offsetCount ls ≤ bs.length ∧
      windowsFrom (tupleFrame bs ls) bs.toArray 0 0 0 ls = .ok ws ∧
        checkEnd (tupleFrame bs ls) ls (lastStop 0 ws) = .ok () := by
  unfold windows
  rw [if_neg (by simpa using hls)]
  simp only [List.size_toArray]
  by_cases htable : bs.length < offsetWidth bs.length * offsetCount ls
  · rw [if_pos htable]
    refine ⟨nofun, ?_⟩
    rintro ⟨hle, -⟩
    omega
  rw [if_neg htable]
  simp only [except_bind_eq_ok, mapError_eq_ok, lastStop_eq, pure, Except.pure, Except.ok.injEq]
  constructor
  · rintro ⟨ws, h1, _, h2, rfl⟩
    exact ⟨not_lt.1 htable, h1, h2⟩
  · rintro ⟨-, h1, h2⟩
    exact ⟨ws, h1, (), h2, rfl⟩

/-- What the reader checks of the members and of their end is that they are tiled and closed. -/
theorem windowsFrom_and_checkEnd_iff {ls : List Layout} {ws : List Window} (hl : ∀ l ∈ ls, 0 < l.alignment)
    (hle : offsetWidth bs.length * offsetCount ls ≤ bs.length) :
    windowsFrom (tupleFrame bs ls) bs.toArray 0 0 0 ls = .ok ws ∧
        checkEnd (tupleFrame bs ls) ls (lastStop 0 ws) = .ok () ↔ Tiled 0 ls ws ∧ Closes ls ws bs := by
  rw [windowsFrom_eq_ok rfl (Nat.sub_le ..) hl (by rwa [Nat.zero_add]), checkEnd_eq_ok]
  unfold Closes
  simp only [tupleFrame]
  by_cases hfixed : allFixed ls = true
  · simp only [hfixed, offsetCount_eq_zero hfixed, if_true, Nat.mul_zero, Nat.sub_zero, List.range'_zero, List.map_nil]
    constructor
    · rintro ⟨⟨h1, -⟩, h2⟩
      exact ⟨h1, h2⟩
    · rintro ⟨h1, h2⟩
      refine ⟨⟨h1, fun w hw => ?_, ?_, fun l hl hvar => ?_⟩, h2⟩
      · have h3 := h1.stop_le_lastStop hw
        have h4 := le_alignUp (lastStop 0 ws) (tupleAlignment ls)
        omega
      · rw [← List.length_eq_zero_iff, h1.length_recorded, offsetCount_eq_zero hfixed]
      · rw [List.all_eq_true.1 hfixed l (List.mem_of_getLast? hl)] at hvar
        cases hvar
  · simp only [hfixed, Bool.false_eq_true, if_false]
    constructor
    · rintro ⟨⟨h1, -, h2, -⟩, h3⟩
      refine ⟨h1, by omega, (drop_eq_table_reverse_iff ?_).2 ?_⟩
      · rw [h1.length_recorded]
        omega
      · rw [h1.length_recorded]
        exact h2
    · rintro ⟨h1, h2, h3⟩
      have hlen := congrArg List.length h3.1
      rw [List.length_drop, length_table, List.length_reverse, h1.length_recorded] at hlen
      have hrec := (drop_eq_table_reverse_iff (by rw [h1.length_recorded]; omega)).1 h3
      rw [h1.length_recorded] at hrec
      refine ⟨⟨h1, fun w hw => ?_, hrec, fun _ _ _ => by omega⟩, by omega⟩
      have := h1.stop_le_lastStop hw
      omega

/-- **The windows of a tuple's members are tiled and closed by the table**, and by nothing else. -/
theorem windows_eq_ok {ls : List Layout} {ws : List Window} (hls : ls ≠ []) (hl : ∀ l ∈ ls, 0 < l.alignment) :
    windows bs.toArray ls = .ok ws ↔ Tiled 0 ls ws ∧ Closes ls ws bs := by
  rw [windows_eq_ok_iff hls]
  constructor
  · rintro ⟨hle, h⟩
    exact (windowsFrom_and_checkEnd_iff hl hle).1 h
  · rintro ⟨ht, hc⟩
    have hle := hc.table_le ht
    exact ⟨hle, (windowsFrom_and_checkEnd_iff hl hle).2 ⟨ht, hc⟩⟩

/-! ## Arrays -/

/-- The windows of all elements of an array that takes the whole of `data`. -/
def elementWindows (data : Array UInt8) (l : Layout) : Except Error (List Window) := do
  let f ← frame data l.fixedSize
  (List.range f.count).mapM (elementWindow data f l)

theorem getLast?_map_stop (p : Nat) :
    ∀ {ws : List Window}, ws ≠ [] → (ws.map Window.stop).getLast? = some (lastStop p ws)
  | [_], _ => rfl
  | w :: v :: ws, _ => by
    rw [List.map_cons, List.map_cons, List.getLast?_cons_cons, ← List.map_cons, lastStop]
    exact getLast?_map_stop w.stop nofun

/-- Elements of a fixed size follow one another without padding. -/
theorem tiled_replicate_iff {l : Layout} {n : Nat} (hn : l.fixedSize = some n) (hd : l.alignment ∣ n) :
    ∀ {m k : Nat} {ws : List Window},
      Tiled (k * n) (List.replicate m l) ws ↔ ws = (List.range' k m).map fun i => ⟨i * n, (i + 1) * n⟩
  | 0, k, ws => by
    cases ws with
    | nil => exact ⟨fun _ => rfl, fun _ => trivial⟩
    | cons w ws => exact ⟨fun h => h.elim, nofun⟩
  | m + 1, k, ws => by
    cases ws with
    | nil => exact ⟨fun h => h.elim, nofun⟩
    | cons w ws =>
      rw [List.range'_succ, List.map_cons, List.cons.injEq, ← tiled_replicate_iff hn hd, List.replicate_succ, Tiled,
        alignUp_of_dvd (Dvd.dvd.mul_left hd k), hn]
      have hk : (k + 1) * n = k * n + n := by ring
      simp only [Option.mem_def, Option.some.injEq, forall_eq']
      constructor
      · rintro ⟨h1, -, h2, h3⟩
        have hw : w.stop = (k + 1) * n := by omega
        exact ⟨by rw [← h1, ← hw], by rwa [hw] at h3⟩
      · rintro ⟨rfl, h⟩
        exact ⟨rfl, by simp only; omega, by simp only; omega, h⟩

theorem lastStop_range {n : Nat} : ∀ {m k : Nat},
    lastStop (k * n) ((List.range' k m).map fun i => ⟨i * n, (i + 1) * n⟩) = (k + m) * n
  | 0, k => rfl
  | m + 1, k => by
    rw [List.range'_succ, List.map_cons, lastStop, lastStop_range]
    congr 1
    omega

theorem elementOffset_eq {f : CollectionFrame} {i : Nat}
    (h : f.tableStart + i * f.offsetWidth + f.offsetWidth ≤ bs.length) :
    elementOffset bs.toArray f i = .ok (entry f.offsetWidth bs (f.tableStart + i * f.offsetWidth)) := by
  have hcast : (f.tableStart : Int) + i * f.offsetWidth = (f.tableStart + i * f.offsetWidth : Nat) := by push_cast; rfl
  rw [elementOffset, hcast, offsetAt_eq h]
  rfl

/-- The window of an element of variable size, from the end of the one before it. -/
theorem elementWindow_variable_eq_ok {f : CollectionFrame} {l : Layout} {k p : Nat} {w : Window} (hl : 0 < l.alignment)
    (hvar : l.fixedSize = none) (hp : previousStop bs.toArray f k = .ok p)
    (hk : f.tableStart + k * f.offsetWidth + f.offsetWidth ≤ bs.length) :
    elementWindow bs.toArray f l k = .ok w ↔
      w.start = alignUp p l.alignment ∧ w.start ≤ w.stop ∧ w.stop ≤ f.tableStart ∧
        w.stop = entry f.offsetWidth bs (f.tableStart + k * f.offsetWidth) := by
  rw [elementWindow, hvar]
  simp only [hp, elementOffset_eq hk, bind, Except.bind, hl.ne', if_false, pure, Except.pure]
  split
  · simp only [reduceCtorEq, false_iff]
    rintro ⟨h1, h2, h3, h4⟩
    omega
  · rw [Except.ok.injEq]
    constructor
    · rintro rfl
      exact ⟨rfl, by simp only; omega, by simp only; omega, rfl⟩
    · rintro ⟨h1, -, -, h4⟩
      rw [← h1, ← h4]

/-- Elements of variable size, located one by one from the ends of those before them. -/
theorem mapM_elementWindow_eq_ok {f : CollectionFrame} {l : Layout} (hl : 0 < l.alignment) (hvar : l.fixedSize = none) :
    ∀ {m k p : Nat} {ws : List Window}, previousStop bs.toArray f k = .ok p →
      f.tableStart + (k + m) * f.offsetWidth ≤ bs.length →
      ((List.range' k m).mapM (elementWindow bs.toArray f l) = .ok ws ↔
        Tiled p (List.replicate m l) ws ∧ (∀ w ∈ ws, w.stop ≤ f.tableStart) ∧
          ws.map Window.stop = (List.range' k m).map fun i => entry f.offsetWidth bs (f.tableStart + i * f.offsetWidth))
  | 0, k, p, ws, _, _ => by
    rw [mapM_eq_ok_iff, List.range'_zero, List.forall₂_nil_left_iff]
    constructor
    · rintro rfl
      exact ⟨trivial, nofun, rfl⟩
    · rintro ⟨-, -, h⟩
      exact List.map_eq_nil_iff.1 h
  | m + 1, k, p, ws, hp, hm => by
    have hsplit : (k + (m + 1)) * f.offsetWidth = (k + 1 + m) * f.offsetWidth := by ring
    have hstep : (k + (m + 1)) * f.offsetWidth = k * f.offsetWidth + f.offsetWidth + m * f.offsetWidth := by ring
    have hk : f.tableStart + k * f.offsetWidth + f.offsetWidth ≤ bs.length := by omega
    have hoffset := elementOffset_eq hk
    rw [List.range'_succ, mapM_eq_ok_iff, List.forall₂_cons_left_iff, List.replicate_succ, List.map_cons]
    constructor
    · rintro ⟨w, ws, hw, hws, rfl⟩
      obtain ⟨h1, h2, h3, h4⟩ := (elementWindow_variable_eq_ok hl hvar hp hk).1 hw
      have hp' : previousStop bs.toArray f (k + 1) = .ok w.stop := by rw [previousStop, hoffset, h4]
      obtain ⟨h5, h6, h7⟩ := (mapM_elementWindow_eq_ok hl hvar hp' (by omega)).1 (mapM_eq_ok_iff.2 hws)
      refine ⟨⟨h1, h2, fun n hn => ?_, h5⟩, List.forall_mem_cons.2 ⟨h3, h6⟩, by rw [List.map_cons, h7, h4]⟩
      rw [hvar] at hn
      cases hn
    · rintro ⟨ht, hle, hstops⟩
      cases ws with
      | nil => exact ht.elim
      | cons w ws =>
        obtain ⟨h1, h2, -, h5⟩ := ht
        obtain ⟨h3, h6⟩ := List.forall_mem_cons.1 hle
        rw [List.map_cons, List.cons.injEq] at hstops
        have hp' : previousStop bs.toArray f (k + 1) = .ok w.stop := by rw [previousStop, hoffset, hstops.1]
        have hws := (mapM_elementWindow_eq_ok hl hvar hp' (by omega)).2 ⟨h5, h6, hstops.2⟩
        have hw := (elementWindow_variable_eq_ok hl hvar hp hk).2 ⟨h1, h2, h3, hstops.1⟩
        exact ⟨w, ws, hw, mapM_eq_ok_iff.1 hws, rfl⟩

/-- Elements of a fixed size take all the bytes, and there are none without a size. -/
theorem frame_fixed_eq_ok {n : Nat} {f : CollectionFrame} :
    frame bs.toArray (some n) = .ok f ↔ ∃ m, f = ⟨m, 0, bs.length⟩ ∧ bs.length = m * n ∧ (n = 0 → m = 0) := by
  unfold frame
  simp only [List.size_toArray]
  by_cases h0 : bs.length = 0
  · rw [if_pos h0, Except.ok.injEq, h0]
    constructor
    · rintro rfl
      exact ⟨0, rfl, (Nat.zero_mul n).symm, fun _ => rfl⟩
    · rintro ⟨m, rfl, h, hzero⟩
      rw [(Nat.mul_eq_zero.1 h.symm).elim id hzero]
  rw [if_neg h0]
  by_cases hn : n = 0
  · rw [if_pos hn]
    refine ⟨nofun, ?_⟩
    rintro ⟨m, -, h, -⟩
    rw [hn, Nat.mul_zero] at h
    exact absurd h h0
  rw [if_neg hn]
  constructor
  · intro h
    split at h
    · cases h
    rename_i hmod
    cases h
    have hdvd := Nat.dvd_of_mod_eq_zero (not_not.1 hmod)
    exact ⟨bs.length / n, rfl, (Nat.div_mul_cancel hdvd).symm, fun h => absurd h hn⟩
  · rintro ⟨m, rfl, h, -⟩
    rw [h, if_neg (not_not.2 (Nat.mul_mod_left m n)), Nat.mul_div_cancel _ (Nat.pos_of_ne_zero hn)]

theorem elementWindows_fixed {l : Layout} {n : Nat} {ws : List Window} (hn : l.fixedSize = some n)
    (hd : l.alignment ∣ n) :
    elementWindows bs.toArray l = .ok ws ↔
      Tiled 0 (List.replicate ws.length l) ws ∧ bs.length = lastStop 0 ws ∧ (n = 0 → ws = []) := by
  have hmap : ∀ m, (List.range m).mapM (elementWindow bs.toArray ⟨m, 0, bs.length⟩ l) =
      .ok ((List.range' 0 m).map fun i => ⟨i * n, (i + 1) * n⟩) := by
    intro m
    rw [mapM_eq_ok_iff, List.range_eq_range', List.forall₂_map_right_iff, List.forall₂_same]
    intro i _
    rw [elementWindow, hn]
  have htiled : Tiled 0 (List.replicate ws.length l) ws ↔
      ws = (List.range' 0 ws.length).map fun i => ⟨i * n, (i + 1) * n⟩ := by
    have h : Tiled (0 * n) (List.replicate ws.length l) ws ↔ _ := tiled_replicate_iff hn hd
    rwa [Nat.zero_mul] at h
  have hlast : ∀ m, lastStop 0 ((List.range' 0 m).map fun i => ⟨i * n, (i + 1) * n⟩) = m * n := by
    intro m
    have := lastStop_range (n := n) (m := m) (k := 0)
    rwa [Nat.zero_mul, Nat.zero_add] at this
  rw [htiled, elementWindows, hn]
  simp only [except_bind_eq_ok, frame_fixed_eq_ok]
  constructor
  · rintro ⟨_, ⟨m, rfl, hlen, hzero⟩, h⟩
    rw [hmap, Except.ok.injEq] at h
    subst h
    refine ⟨by simp, by rw [hlast, hlen], fun h0 => ?_⟩
    rw [hzero h0]
    rfl
  · rintro ⟨hws, hlen, hzero⟩
    refine ⟨_, ⟨ws.length, rfl, ?_, fun h0 => by rw [hzero h0]; rfl⟩, by rw [hmap, ← hws]⟩
    rw [hlen, hws, hlast, ← hws]

/-- The last offset of a table, at the very end, is the end of the last element. -/
theorem entry_last {w n : Nat} {ws : List Window} (hws : ws ≠ []) (hn : n + w * ws.length = bs.length)
    (h : ws.map Window.stop = (List.range' 0 ws.length).map fun i => entry w bs (n + i * w)) :
    entry w bs (bs.length - w) = lastStop 0 ws := by
  obtain ⟨m, hm⟩ := Nat.exists_eq_succ_of_ne_zero (mt List.length_eq_zero_iff.1 hws)
  have h1 := getLast?_map_stop 0 hws
  rw [h, hm, List.range'_concat, List.map_append, List.map_singleton, List.getLast?_concat, Option.some.injEq] at h1
  rw [← h1, ← hn, hm]
  congr 1
  rw [Nat.mul_succ, Nat.zero_add, Nat.one_mul, Nat.mul_comm]
  omega

/-- The frame of elements of variable size has a table up to the end, whose last offset is where it starts. -/
theorem frame_variable_eq_ok {f : CollectionFrame} (h0 : bs ≠ []) :
    frame bs.toArray none = .ok f ↔ f.offsetWidth = offsetWidth bs.length ∧
      f.tableStart + f.offsetWidth * f.count = bs.length ∧ 0 < f.count ∧
        entry f.offsetWidth bs (bs.length - f.offsetWidth) = f.tableStart := by
  have hpos := List.length_pos_iff.2 h0
  have hw := offsetWidth_pos hpos
  have hle := offsetWidth_le bs.length
  unfold frame
  simp only [List.size_toArray]
  rw [if_neg hpos.ne']
  generalize offsetWidth bs.length = w at hw hle ⊢
  have hlast : offsetAt bs.toArray ((bs.length : Int) - w) w = .ok (entry w bs (bs.length - w)) := by
    rw [← Nat.cast_sub hle]
    exact offsetAt_eq (by omega)
  simp only [hlast, Except.mapError, bind, Except.bind]
  constructor
  · intro h
    split at h
    · cases h
    rename_i hT
    cases h
    rw [not_or, not_not, not_le] at hT
    have hdvd := Nat.dvd_of_mod_eq_zero hT.2
    have hcount := Nat.mul_div_cancel' hdvd
    refine ⟨rfl, ?_, Nat.div_pos (Nat.le_of_dvd (by omega) hdvd) hw, rfl⟩
    simp only [hcount]
    omega
  · rintro ⟨rfl, hn, hcount, hT⟩
    have hsize := Nat.mul_pos hw hcount
    have hsub : bs.length - f.tableStart = f.offsetWidth * f.count := by omega
    rw [hT, hsub, Nat.mul_mod_right, Nat.mul_div_cancel_left _ hw, if_neg (by omega)]
    rfl

theorem elementWindows_variable {l : Layout} {ws : List Window} (hl : 0 < l.alignment) (hvar : l.fixedSize = none) :
    elementWindows bs.toArray l = .ok ws ↔
      Tiled 0 (List.replicate ws.length l) ws ∧ (ws ≠ [] → bs ≠ []) ∧ lastStop 0 ws ≤ bs.length ∧
        bs.drop (lastStop 0 ws) = table (offsetWidth bs.length) (ws.map Window.stop) ∧
          ∀ x ∈ ws.map Window.stop, x < 256 ^ offsetWidth bs.length := by
  rw [elementWindows, hvar]
  by_cases h0 : bs = []
  · subst h0
    constructor
    · intro h
      cases h
      exact ⟨trivial, fun h => absurd rfl h, le_rfl, rfl, nofun⟩
    · rintro ⟨-, h, -⟩
      rw [not_ne_iff.1 fun hne => h hne rfl]
      rfl
  rw [except_bind_eq_ok]
  constructor
  · rintro ⟨f, hf, h⟩
    obtain ⟨hw, hn, hcount, hT⟩ := (frame_variable_eq_ok h0).1 hf
    rw [Nat.mul_comm] at hn
    rw [List.range_eq_range', mapM_elementWindow_eq_ok (p := 0) hl hvar rfl (by rw [Nat.zero_add, hn])] at h
    obtain ⟨h1, -, h3⟩ := h
    have hlen : f.count = ws.length := by rw [← h1.length_eq, List.length_replicate]
    rw [hlen] at h1 h3 hn hcount
    rw [Nat.mul_comm] at hn
    have hstop := entry_last (List.length_pos_iff.1 hcount) hn h3
    rw [hT] at hstop
    rw [← hstop, ← hw]
    refine ⟨h1, fun _ => h0, by omega, (drop_eq_table_iff (by rwa [List.length_map])).2 ?_⟩
    rwa [List.length_map]
  · rintro ⟨h1, -, h2, h3⟩
    have hlen := congrArg List.length h3.1
    rw [List.length_drop, length_table, List.length_map] at hlen
    have hn : lastStop 0 ws + offsetWidth bs.length * ws.length = bs.length := by omega
    have hne : ws ≠ [] := by
      rintro rfl
      exact h0 (List.length_eq_zero_iff.1 hn.symm)
    have h4 := (drop_eq_table_iff (by rwa [List.length_map])).1 h3
    rw [List.length_map] at h4
    have hframe := (frame_variable_eq_ok (f := ⟨ws.length, offsetWidth bs.length, lastStop 0 ws⟩) h0).2
      ⟨rfl, hn, List.length_pos_iff.2 hne, entry_last hne hn h4⟩
    rw [Nat.mul_comm] at hn
    refine ⟨_, hframe, ?_⟩
    rw [List.range_eq_range', mapM_elementWindow_eq_ok (p := 0) hl hvar rfl (by rw [Nat.zero_add, hn])]
    exact ⟨h1, fun v hv => h1.stop_le_lastStop hv, h4⟩

end Marshal.Framing
