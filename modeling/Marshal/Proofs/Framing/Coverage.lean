import Marshal.Proofs.Gvariant.Outcome
/-!
# Accepted frames cover their window

Offsets come from outside and are checked one at a time. Still the checks add up: where a reader accepts a frame, the
windows of the children follow one another with nothing but padding between them, and what is behind the last of them
is the padding of the whole or a table of whole offsets (`CoversTuple`, `CoversArray`). No other bytes are left over,
and no two children share one. Any other input is refused as not valid (`windows_cover`).
-/
namespace Marshal.Framing

variable {bs : List UInt8} {l : Layout} {ls : List Layout} {ws : List Window}

namespace Tiled

theorem le_start_of_mem {w : Window} : ∀ {p : Nat} {ls : List Layout} {ws : List Window}, Tiled p ls ws → w ∈ ws →
    p ≤ w.start
  | _, [], [], _, hw => by cases hw
  | p, l :: _, v :: _, ⟨h1, h2, _, h⟩, hw => by
    have hp := le_alignUp p l.alignment
    rcases List.mem_cons.1 hw with rfl | hw
    · omega
    · have hv := h.le_start_of_mem hw
      omega

/-- Windows that follow one another have no byte in common. -/
theorem pairwise : ∀ {p : Nat} {ls : List Layout} {ws : List Window}, Tiled p ls ws →
    ws.Pairwise fun v w => v.stop ≤ w.start
  | _, [], [], _ => .nil
  | _, _ :: _, _ :: _, ⟨_, _, _, h⟩ => .cons (fun _ hw => h.le_start_of_mem hw) h.pairwise

end Tiled

/-! ## The alignment of a tuple -/

theorem foldl_max_alignment : ∀ (ls : List Layout) (a : Nat), let b := ls.foldl (fun a l => max a l.alignment) a
    a ≤ b ∧ (∀ l ∈ ls, l.alignment ≤ b) ∧ (b = a ∨ ∃ l ∈ ls, l.alignment = b)
  | [], a => ⟨le_rfl, nofun, .inl rfl⟩
  | l :: ls, a => by
    obtain ⟨hle, hall, hmem⟩ := foldl_max_alignment ls (max a l.alignment)
    rw [List.foldl_cons]
    refine ⟨(le_max_left ..).trans hle, List.forall_mem_cons.2 ⟨(le_max_right ..).trans hle, hall⟩, ?_⟩
    rcases hmem with hb | ⟨k, hk, hb⟩
    · rw [hb]
      rcases max_choice a l.alignment with h | h
      · exact .inl h
      · exact .inr ⟨l, List.mem_cons_self, h.symm⟩
    · exact .inr ⟨k, List.mem_cons_of_mem l hk, hb⟩

/-- A tuple is aligned to the largest alignment of its members. -/
theorem isGreatest_tupleAlignment (hls : ls ≠ []) (hl : ∀ l ∈ ls, 0 < l.alignment) :
    IsGreatest {a | ∃ l ∈ ls, l.alignment = a} (tupleAlignment ls) := by
  obtain ⟨-, hall, hmem⟩ := foldl_max_alignment ls 1
  refine ⟨hmem.elim (fun hone => ?_) id, ?_⟩
  · obtain ⟨l, hl'⟩ := List.exists_mem_of_ne_nil ls hls
    exact ⟨l, hl', le_antisymm (hall l hl') (hone.le.trans (hl l hl'))⟩
  · rintro a ⟨l, hl', rfl⟩
    exact hall l hl'

/-! ## Tuples -/

/-- How the windows of its members cover a tuple. -/
structure CoversTuple (bs : List UInt8) (ls : List Layout) (ws : List Window) : Prop where
  tiled : Tiled 0 ls ws
  disjoint : ws.Pairwise fun v w => v.stop ≤ w.start
  /-- With members of a fixed size only, what is left pads the tuple to the largest of their alignments. -/
  padded : allFixed ls = true →
    ∃ a, IsGreatest {k | ∃ l ∈ ls, l.alignment = k} a ∧ alignUp (lastStop 0 ws) a = bs.length
  /-- Otherwise it is a table with an offset for each member of variable size that is not the last. -/
  table : allFixed ls = false →
    lastStop 0 ws + offsetWidth bs.length * ls.dropLast.countP (fun l => !l.isFixed) = bs.length ∧
      bs.drop (lastStop 0 ws) = table (offsetWidth bs.length) (recorded ls ws).reverse

theorem coversTuple_of_windows (hls : ls ≠ []) (hl : ∀ l ∈ ls, 0 < l.alignment)
    (h : windows bs.toArray ls = .ok ws) : CoversTuple bs ls ws := by
  obtain ⟨ht, hc⟩ := (windows_eq_ok hls hl).1 h
  unfold Closes at hc
  refine ⟨ht, ht.pairwise, fun hfixed => ?_, fun hvar => ?_⟩
  · rw [hfixed, if_pos rfl] at hc
    exact ⟨_, isGreatest_tupleAlignment hls hl, hc.symm⟩
  · rw [hvar, if_neg Bool.false_ne_true] at hc
    obtain ⟨hle, htable, -⟩ := hc
    have hlen := congrArg List.length htable
    rw [List.length_drop, length_table, List.length_reverse, ht.length_recorded] at hlen
    rw [← offsetCount]
    exact ⟨by omega, htable⟩

/-! ## Arrays -/

/-- The width of the offsets of an array: there are none where all elements have the same size. -/
def elementOffsetWidth (l : Layout) (size : Nat) : Nat := if l.isFixed then 0 else offsetWidth size

theorem elementOffsetWidth_fixed {n : Nat} (h : l.fixedSize = some n) (size : Nat) : elementOffsetWidth l size = 0 := by
  rw [elementOffsetWidth, Layout.isFixed, h, Option.isSome_some, if_pos rfl]

theorem elementOffsetWidth_variable (h : l.fixedSize = none) (size : Nat) :
    elementOffsetWidth l size = offsetWidth size := by
  rw [elementOffsetWidth, Layout.isFixed, h, Option.isSome_none, if_neg Bool.false_ne_true]

/-- How the windows of its elements cover an array. -/
structure CoversArray (bs : List UInt8) (l : Layout) (ws : List Window) : Prop where
  tiled : Tiled 0 (List.replicate ws.length l) ws
  disjoint : ws.Pairwise fun v w => v.stop ≤ w.start
  /-- The last element ends where the table starts. -/
  frame : frame bs.toArray l.fixedSize = .ok ⟨ws.length, elementOffsetWidth l bs.length, lastStop 0 ws⟩
  /-- What is left is a table with an offset for each element. -/
  table : lastStop 0 ws + elementOffsetWidth l bs.length * ws.length = bs.length ∧
    bs.drop (lastStop 0 ws) = table (elementOffsetWidth l bs.length) (ws.map Window.stop)

/-- The frame of an array accounts for all of its bytes. -/
theorem frame_spec {f : CollectionFrame} (h : frame bs.toArray l.fixedSize = .ok f) :
    f.offsetWidth = elementOffsetWidth l bs.length ∧ f.tableStart + f.offsetWidth * f.count = bs.length := by
  cases hn : l.fixedSize with
  | some n =>
    rw [hn] at h
    obtain ⟨m, rfl, -, -⟩ := frame_fixed_eq_ok.1 h
    exact ⟨(elementOffsetWidth_fixed hn _).symm, by rw [Nat.zero_mul, Nat.add_zero]⟩
  | none =>
    rw [hn] at h
    rw [elementOffsetWidth_variable hn]
    by_cases h0 : bs = []
    · subst h0
      cases h
      exact ⟨(Nat.le_zero.1 (offsetWidth_le 0)).symm, rfl⟩
    · obtain ⟨hw, hsize, -⟩ := (frame_variable_eq_ok h0).1 h
      exact ⟨hw, hsize⟩

/-- Elements of a fixed size leave nothing for a table, and behind others there is nothing else. -/
theorem drop_lastStop_of_elementWindows (hl : 0 < l.alignment) (hd : ∀ n ∈ l.fixedSize, l.alignment ∣ n)
    (h : elementWindows bs.toArray l = .ok ws) :
    bs.drop (lastStop 0 ws) = table (elementOffsetWidth l bs.length) (ws.map Window.stop) := by
  cases hn : l.fixedSize with
  | some n =>
    obtain ⟨-, hlen, -⟩ := (elementWindows_fixed hn (hd n hn)).1 h
    rw [← hlen, List.drop_length, elementOffsetWidth_fixed hn]
    exact (List.eq_nil_of_length_eq_zero (by rw [length_table, Nat.zero_mul])).symm
  | none =>
    obtain ⟨-, -, -, htable, -⟩ := (elementWindows_variable hl hn).1 h
    rw [htable, elementOffsetWidth_variable hn]

theorem coversArray_of_elementWindows (hl : 0 < l.alignment) (hd : ∀ n ∈ l.fixedSize, l.alignment ∣ n)
    (h : elementWindows bs.toArray l = .ok ws) : CoversArray bs l ws := by
  obtain ⟨ht, hle, -⟩ := tiled_of_elementWindows hl hd h
  have htable := drop_lastStop_of_elementWindows hl hd h
  have hlen := congrArg List.length htable
  rw [List.length_drop, length_table, List.length_map] at hlen
  have hsize : lastStop 0 ws + elementOffsetWidth l bs.length * ws.length = bs.length := by omega
  obtain ⟨⟨count, w, start⟩, hframe, hws⟩ := except_bind_eq_ok.1 h
  obtain ⟨hw, hstart⟩ := frame_spec hframe
  have hcount : count = ws.length := by rw [← (mapM_eq_ok_iff.1 hws).length_eq, List.length_range]
  simp only at hw hstart
  subst hw hcount
  obtain rfl : start = lastStop 0 ws := by omega
  exact ⟨ht, ht.pairwise, hframe, hsize, htable⟩

/-! ## Every input -/

theorem settles_elementWindows {cap : Option Int} {maybe : Prop} (data : Array UInt8) (hl : 0 < l.alignment)
    (hs : l.fixedSize ≠ some 0) : Settles cap maybe (elementWindows data l) fun _ => True :=
  (settles_frame data hs).bind fun f _ =>
    (settles_mapM fun i _ => settles_elementWindow data f hl i).mono fun _ _ => trivial

/-- **Accepted frames cover their window, and all others are refused as not valid.** This holds of every input, for the
members of a tuple and for the elements of an array. -/
theorem windows_cover (bs : List UInt8) :
    (∀ ls : List Layout, ls ≠ [] → (∀ l ∈ ls, 0 < l.alignment) →
        (∃ ws, windows bs.toArray ls = .ok ws ∧ CoversTuple bs ls ws) ∨
          ∃ d, windows bs.toArray ls = .error (.decode d)) ∧
      ∀ l : Layout, 0 < l.alignment → (∀ n ∈ l.fixedSize, 0 < n ∧ l.alignment ∣ n) →
        (∃ ws, elementWindows bs.toArray l = .ok ws ∧ CoversArray bs l ws) ∨
          ∃ d, elementWindows bs.toArray l = .error (.decode d) := by
  have hrefused {r : Except Error (List Window)} {Q : List Window → Prop} (h : Settles none False r Q) {e : Error}
      (he : r = .error e) : ∃ d, r = .error (.decode d) := by
    cases h.error he with
    | invalid d => exact ⟨d, he⟩
    | overCap h => cases h
    | unsupported h => exact h.elim
  constructor
  · intro ls hls hl
    cases hr : windows bs.toArray ls with
    | ok ws => exact .inl ⟨ws, rfl, coversTuple_of_windows hls hl hr⟩
    | error e => exact .inr (hr ▸ hrefused (settles_windows bs.toArray hls hl) hr)
  · intro l hl hd
    cases hr : elementWindows bs.toArray l with
    | ok ws => exact .inl ⟨ws, rfl, coversArray_of_elementWindows hl (fun n hn => (hd n hn).2) hr⟩
    | error e =>
      have hs : l.fixedSize ≠ some 0 := fun h0 => absurd (hd 0 h0).1 (lt_irrefl 0)
      exact .inr (hr ▸ hrefused (settles_elementWindows bs.toArray hl hs) hr)

/-- The same bytes as two texts around a number, as two elements of a fixed size, and as elements of variable size: then
the table starts behind the second byte, and one of the offsets in it is greater. -/
theorem windows_cover_text_number_text :
    let bs : List UInt8 := [97, 98, 0, 0, 1, 2, 3, 4, 99, 2]
    let ls : List Layout := [⟨1, none⟩, ⟨4, some 4⟩, ⟨1, none⟩]
    ls ≠ [] ∧ (∀ l ∈ ls, 0 < l.alignment) ∧ windows bs.toArray ls = .ok [⟨0, 2⟩, ⟨4, 8⟩, ⟨8, 9⟩] ∧
      CoversTuple bs ls [⟨0, 2⟩, ⟨4, 8⟩, ⟨8, 9⟩] ∧
      elementWindows bs.toArray ⟨1, some 5⟩ = .ok [⟨0, 5⟩, ⟨5, 10⟩] ∧ CoversArray bs ⟨1, some 5⟩ [⟨0, 5⟩, ⟨5, 10⟩] ∧
      ∃ d, elementWindows bs.toArray ⟨1, none⟩ = .error (.decode d) := by
  intro bs ls
  obtain ⟨htuple, harray⟩ := windows_cover bs
  have hls : ls ≠ [] := List.cons_ne_nil _ _
  have hl : ∀ l ∈ ls, 0 < l.alignment := by decide
  have hmembers : windows bs.toArray ls = .ok [⟨0, 2⟩, ⟨4, 8⟩, ⟨8, 9⟩] := by
    simp only [bs, ls]
    rfl
  have helements : elementWindows bs.toArray ⟨1, some 5⟩ = .ok [⟨0, 5⟩, ⟨5, 10⟩] := by
    simp only [bs]
    rfl
  have hmisfit : elementWindows bs.toArray ⟨1, none⟩ = .error (.decode (.elementOutside 4 2 3 2)) := by
    simp only [bs]
    rfl
  refine ⟨hls, hl, hmembers, ?_, helements, ?_, ?_⟩
  · rcases htuple ls hls hl with ⟨ws, hws, hcovers⟩ | ⟨d, hd⟩
    · cases hmembers.symm.trans hws
      exact hcovers
    · cases hmembers.symm.trans hd
  · rcases harray ⟨1, some 5⟩ (by decide) (by decide) with ⟨ws, hws, hcovers⟩ | ⟨d, hd⟩
    · cases helements.symm.trans hws
      exact hcovers
    · cases helements.symm.trans hd
  · rcases harray ⟨1, none⟩ (by decide) (by decide) with ⟨ws, hws, -⟩ | hd
    · cases hmisfit.symm.trans hws
    · exact hd

end Marshal.Framing
