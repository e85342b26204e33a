import Marshal.Proofs.Metering
import Marshal.Proofs.RandomAccess
/-!
# What reading one child depends on

GVariant reads a child at an index without its siblings. Two inputs of one size are compared: where a child was located
in the first, it is located in the second at the same place as soon as they agree on the table of offsets, for the table
and the size are all that a window is computed from. Where they agree on the window as well, the reader of the child is
given the same bytes at the same position, so it gives the same, whether that is a value or an error.
-/
namespace Marshal

/-- Whether two inputs have the same bytes from one position up to, and without, another. -/
def AgreeBetween (start stop : Nat) (data data' : List UInt8) : Prop :=
  ∀ i, start ≤ i → i < stop → data[i]? = data'[i]?

variable {data data' : List UInt8} {n : Nat}

theorem AgreeBetween.drop_eq (hlen : data'.length = data.length) (h : AgreeBetween n data.length data data') :
    data'.drop n = data.drop n := by
  refine List.ext_getElem? fun i => ?_
  rw [List.getElem?_drop, List.getElem?_drop]
  by_cases hi : n + i < data.length
  · exact (h _ (Nat.le_add_right n i) hi).symm
  · rw [List.getElem?_eq_none (by omega), List.getElem?_eq_none (by omega)]

theorem AgreeBetween.slice_eq {w : Framing.Window} (h : AgreeBetween w.start w.stop data data') :
    w.slice data' = w.slice data := by
  refine List.ext_getElem? fun i => ?_
  rw [Framing.Window.slice, Framing.Window.slice, List.getElem?_take, List.getElem?_take, List.getElem?_drop,
    List.getElem?_drop]
  split
  · exact (h _ (Nat.le_add_right w.start i) (by omega)).symm
  · rfl

/-! ## The table of offsets -/

namespace Framing

section Table

variable (hlen : data'.length = data.length) (hdrop : data'.drop n = data.drop n)

include hdrop in
theorem entry_of_drop {p : Nat} (w : Nat) (hp : n ≤ p) : entry w data' p = entry w data p := by
  rw [← Nat.add_sub_cancel' hp, ← entry_drop, ← entry_drop, hdrop]

include hlen hdrop

/-- An offset in the table, or the refusal of one that ends outside. -/
theorem offsetAt_of_drop {p : Nat} (w : Nat) (hp : n ≤ p) :
    offsetAt data'.toArray p w = offsetAt data.toArray p w := by
  by_cases hin : p + w ≤ data.length
  · rw [offsetAt_eq hin, offsetAt_eq (hlen ▸ hin), entry_of_drop hdrop w hp]
  · rw [offsetAt, offsetAt, if_pos (by simp only [List.size_toArray]; omega),
      if_pos (by simp only [List.size_toArray]; omega)]

theorem elementOffset_of_drop {f : CollectionFrame} (hf : f.tableStart = n) (i : Nat) :
    elementOffset data'.toArray f i = elementOffset data.toArray f i := by
  have hcast : (f.tableStart : Int) + i * f.offsetWidth = (n + i * f.offsetWidth : Nat) := by
    rw [hf]
    push_cast
    rfl
  rw [elementOffset, elementOffset, hcast, offsetAt_of_drop hlen hdrop _ (Nat.le_add_right ..)]

theorem elementWindow_of_drop {f : CollectionFrame} (hf : f.tableStart = n) (l : Layout) (i : Nat) :
    elementWindow data'.toArray f l i = elementWindow data.toArray f l i := by
  have hprevious : previousStop data'.toArray f i = previousStop data.toArray f i := by
    cases i with
    | zero => rfl
    | succ i => exact elementOffset_of_drop hlen hdrop hf i
  rw [elementWindow, elementWindow, hprevious, elementOffset_of_drop hlen hdrop hf i]

/-- The last offset says where the table starts, and it is in the table itself. -/
theorem frame_of_drop {fixedSize : Option Nat} {f : CollectionFrame} (hf : f.tableStart = n)
    (h : frame data.toArray fixedSize = .ok f) : frame data'.toArray fixedSize = .ok f := by
  cases fixedSize with
  | some m =>
    rw [frame_fixed_eq_ok] at h ⊢
    rwa [hlen]
  | none =>
    by_cases h0 : data = []
    · rwa [List.length_eq_zero_iff.1 (hlen.trans (congrArg List.length h0)), ← h0]
    have h0' : data' ≠ [] := fun h => h0 (List.length_eq_zero_iff.1 (hlen.symm.trans (congrArg List.length h)))
    obtain ⟨hwidth, htable, hcount, hlast⟩ := (frame_variable_eq_ok h0).1 h
    refine (frame_variable_eq_ok h0').2 ⟨by rw [hlen, hwidth], by rw [hlen, htable], hcount, ?_⟩
    have hle : n ≤ data.length - f.offsetWidth := by
      have := Nat.le_mul_of_pos_right f.offsetWidth hcount
      omega
    rw [hlen, entry_of_drop hdrop _ hle, hlast]

theorem itemWindow_of_drop {l : Layout} {f : CollectionFrame} (hf : frame data.toArray l.fixedSize = .ok f)
    (hn : f.tableStart = n) (i : Int) : itemWindow data'.toArray l i = itemWindow data.toArray l i := by
  rw [itemWindow, itemWindow, hf, frame_of_drop hlen hdrop hn hf]
  simp only [Bind.bind, Except.bind]
  rw [elementWindow_of_drop hlen hdrop hn]

/-- The members of a tuple end where its table starts, and their ends are in the table. -/
theorem windows_of_drop {ls : List Layout} {ws : List Window} (hl : ∀ l ∈ ls, 0 < l.alignment)
    (hn : (tupleFrame data ls).tableStart = n) (h : windows data.toArray ls = .ok ws) :
    windows data'.toArray ls = .ok ws := by
  have hls : ls ≠ [] := by
    rintro rfl
    cases h
  obtain ⟨htiled, hcloses⟩ := (windows_eq_ok hls hl).1 h
  refine (windows_eq_ok hls hl).2 ⟨htiled, ?_⟩
  unfold Closes at hcloses ⊢
  rw [hlen]
  by_cases hfixed : allFixed ls = true
  · rw [if_pos hfixed] at hcloses ⊢
    exact hcloses
  · have hend := ((windows_eq_ok_iff hls).1 h).2.2
    rw [checkEnd_eq_ok, hn] at hend
    have hend : lastStop 0 ws = n := (if_neg hfixed).mp hend
    rw [if_neg hfixed] at hcloses ⊢
    simp only [hend, hdrop] at hcloses ⊢
    exact hcloses

theorem memberWindow_of_drop {ls : List Layout} {w : Window} {i : Int} (hl : ∀ l ∈ ls, 0 < l.alignment)
    (hn : (tupleFrame data ls).tableStart = n) (h : memberWindow data.toArray ls i = .ok w) :
    memberWindow data'.toArray ls i = .ok w := by
  unfold memberWindow at h ⊢
  split at h
  · cases h
  rename_i hi
  obtain ⟨ws, hws, hw⟩ := except_bind_eq_ok.1 h
  rw [if_neg hi]
  exact except_bind_eq_ok.2 ⟨ws, windows_of_drop hlen hdrop hl hn hws, hw⟩

end Table

end Framing

/-! ## Readers of all that is left -/

namespace Get

theorem run_bind_of_ok {α β : Type} {get : Get α} {next : α → Get β} {s s' : Source} {a : α} (h : get s = .ok a s') :
    run (get >>= next) s = run (next a) s' := by
  simp only [run, bind, EStateM.bind, h]

/-- A cap that comes before all that is left looks at its size only. -/
theorem run_readAll_congr {next : List UInt8 → Get Value} (hlen : data'.length = data.length)
    (hnext : next data' = next data) (p : Int) (cap : Option Int) :
    run (readAll >>= next) ⟨p, data', cap.toList.map Cap.new⟩ =
      run (readAll >>= next) ⟨p, data, cap.toList.map Cap.new⟩ := by
  cases cap with
  | none => exact (run_readAll_bind.trans (by rw [hnext, hlen])).trans run_readAll_bind.symm
  | some N =>
    have hfail {e : Error} (h : ∃ s, readAll ⟨p, data, [Cap.new N]⟩ = .error e s)
        (h' : ∃ s, readAll ⟨p, data', [Cap.new N]⟩ = .error e s) :
        run (readAll >>= next) ⟨p, data', [Cap.new N]⟩ = run (readAll >>= next) ⟨p, data, [Cap.new N]⟩ := by
      obtain ⟨s, hs⟩ := h
      obtain ⟨s', hs'⟩ := h'
      rw [run_eq_error (bind_eq_error.2 (.inl hs)), run_eq_error (bind_eq_error.2 (.inl hs'))]
    by_cases hneg : N < 0
    · exact hfail (exists_readAll_of_neg hneg) (exists_readAll_of_neg hneg)
    by_cases hle : (data.length : Int) ≤ N
    · have hle' : (data'.length : Int) ≤ N := by rwa [hlen]
      have hall := readAll_of_le (p := p) (c := Cap.new N) hle
      have hall' := readAll_of_le (p := p) (c := Cap.new N) hle'
      rw [hlen] at hall'
      exact (run_bind_of_ok hall').trans (hnext ▸ (run_bind_of_ok hall).symm)
    · have hlt : N < data.length := not_le.1 hle
      exact hfail (exists_readAll_of_lt (not_lt.1 hneg) hlt) (exists_readAll_of_lt (not_lt.1 hneg) (by rwa [hlen]))

end Get

namespace Gvariant

open Get Framing

/-- Whether GVariant finds the child at an index of a container in a window, and the table of offsets from a position
on. Without a table that is the end of the input. -/
inductive Locates (data : List UInt8) : Ty → Int → Window → Nat → Prop
  | element {t : Ty} {i : Int} {w : Window} {f : CollectionFrame}
      (hf : frame data.toArray (Layout.ofTy t).fixedSize = .ok f)
      (hw : itemWindow data.toArray (Layout.ofTy t) i = .ok w) : Locates data (.array t) i w f.tableStart
  | member {t : Ty} {ts : List Ty} {i : Int} {w : Window} (hts : t.members? = some ts)
      (hw : memberWindow data.toArray (ts.map Layout.ofTy) i = .ok w) :
      Locates data t i w (tupleFrame data (ts.map Layout.ofTy)).tableStart

variable {c : Codec} {t : Ty} {i : Int} {w : Window}

/-- **A child is located by the table and the size alone.** -/
theorem Locates.of_drop (h : Locates data t i w n) (hlen : data'.length = data.length)
    (hdrop : data'.drop n = data.drop n) : Locates data' t i w n := by
  cases h with
  | element hf hw =>
    exact .element (frame_of_drop hlen hdrop rfl hf) ((itemWindow_of_drop hlen hdrop hf rfl i).trans hw)
  | @member _ ts _ _ hts hw =>
    have htable (ls : List Layout) : (tupleFrame data ls).tableStart = (tupleFrame data' ls).tableStart := by
      simp only [tupleFrame, hlen]
    exact htable _ ▸ .member hts (memberWindow_of_drop hlen hdrop Ty.alignment_pos_of_mem rfl hw)

/-- A child that is read from one window of both inputs. -/
theorem run_child_congr {find : List UInt8 → Except Error Window} {get : Get Value} (hlen : data'.length = data.length)
    (hw : find data = .ok w) (hw' : find data' = .ok w) (hslice : w.slice data' = w.slice data) (cap : Option Int) :
    let child : Get Value := readAll >>= fun bs => Get.ofExcept (find bs) >>= fun w =>
      Get.ofExcept (inWindow 0 bs.toArray w get)
    run child ⟨0, data', cap.toList.map Cap.new⟩ = run child ⟨0, data, cap.toList.map Cap.new⟩ := by
  refine run_readAll_congr hlen ?_ 0 cap
  rw [hw, hw']
  change Get.ofExcept (inWindow 0 data'.toArray w get) = Get.ofExcept (inWindow 0 data.toArray w get)
  rw [inWindow_toArray, inWindow_toArray, hslice]

theorem run_getChild_congr (c : Codec) {n' : Nat} (h : Locates data t i w n) (h' : Locates data' t i w n')
    (hlen : data'.length = data.length) (hslice : w.slice data' = w.slice data) (cap : Option Int) :
    run (getChild c t i) ⟨0, data', cap.toList.map Cap.new⟩ =
      run (getChild c t i) ⟨0, data, cap.toList.map Cap.new⟩ := by
  cases h with
  | element _ hw =>
    cases h' with
    | element _ hw' => exact run_child_congr hlen hw hw' hslice cap
    | member hts' => cases hts'
  | member hts hw =>
    cases h' with
    | element => cases hts
    | member hts' hw' =>
      cases hts.symm.trans hts'
      rw [getChild_members hts]
      split
      · rfl
      split
      · rfl
      · exact run_child_congr hlen hw hw' hslice cap

end Gvariant

namespace Codec

/-- **Reading one child ignores its siblings.** Two inputs of one size that agree on the window of a child and on the
table of offsets have the same child there, or are refused with the same error. -/
theorem decodeChild_of_agree {c : Codec} (hc : c.format = .gvariant) (cap : Option Int) {data data' : List UInt8}
    {t : Ty} {i : Int} {w : Framing.Window} {n : Nat} (h : Gvariant.Locates data t i w n)
    (hlen : data'.length = data.length) (hchild : AgreeBetween w.start w.stop data data')
    (htable : AgreeBetween n data.length data data') :
    c.decodeChild cap data' t i = c.decodeChild cap data t i := by
  have hindexable : isIndexable t = true := by
    cases h with
    | element => rfl
    | member hts =>
      cases t with
      | struct | entry => rfl
      | _ => cases hts
  have hrun (bytes : List UInt8) : c.decodeChild cap bytes t i =
      Get.run (Gvariant.getChild c t i) ⟨0, bytes, cap.toList.map Cap.new⟩ := by
    have hget : c.getChild t i = Gvariant.getChild c t i := by rw [getChild, if_pos hindexable, hc]
    rw [← hget]
    exact Get.run_wrap_bind ..
  rw [hrun, hrun]
  exact Gvariant.run_getChild_congr c h (h.of_drop hlen (htable.drop_eq hlen)) hlen hchild.slice_eq cap

/-- The second of two arrays of bytes, whatever the first one holds. -/
theorem decodeChild_of_agree_nested :
    let c : Codec := ⟨.gvariant, .little, 64, 0⟩
    let data : List UInt8 := [7, 8, 9, 1, 3]
    let data' : List UInt8 := [0, 8, 9, 1, 3]
    let t : Ty := .array (.array .byte)
    Gvariant.Locates data t 1 ⟨1, 3⟩ 3 ∧ AgreeBetween 1 3 data data' ∧ AgreeBetween 3 5 data data' ∧
      c.decodeChild none data t 1 = .ok (.array .byte [.scalar (.int .byte 8), .scalar (.int .byte 9)]) ∧
      c.decodeChild none data' t 1 = .ok (.array .byte [.scalar (.int .byte 8), .scalar (.int .byte 9)]) := by
  intro c data data' t
  have hframe : Framing.frame data.toArray (Layout.ofTy (.array .byte)).fixedSize = .ok ⟨2, 1, 3⟩ := by
    simp only [data]
    rfl
  have hitem : Framing.itemWindow data.toArray (Layout.ofTy (.array .byte)) 1 = .ok ⟨1, 3⟩ := by
    simp only [data]
    rfl
  have hlocates : Gvariant.Locates data t 1 ⟨1, 3⟩ 3 := .element hframe hitem
  have hchild : AgreeBetween 1 3 data data' := fun i h h' => by interval_cases i <;> rfl
  have htable : AgreeBetween 3 5 data data' := fun i h h' => by interval_cases i <;> rfl
  have hdecode : c.decodeChild none data t 1 = .ok (.array .byte [.scalar (.int .byte 8), .scalar (.int .byte 9)]) := by
    simp only [c, data, t]
    rfl
  refine ⟨hlocates, hchild, htable, hdecode, ?_⟩
  rw [decodeChild_of_agree (c := c) rfl none hlocates (rfl : data'.length = data.length) hchild htable, hdecode]

end Codec

end Marshal
