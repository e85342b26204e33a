import Marshal.Proofs.Gvariant.Reading
import Marshal.Proofs.Outcome
/-!
# How reading GVariant ends

A GVariant reader gives a well-formed value of its type, or refuses the input as not valid. What it does not do is go
wrong on the way: alignments are positive, fixed sizes are not zero, and a tuple has members, so that there is no
division by zero and no greatest of nothing. Offsets are looked up where they are, for a look anywhere else is refused.
-/
namespace Marshal

variable {cap : Option Int} {maybe : Prop}

/-! ## Windows -/

namespace Framing

theorem settles_offsetAt (data : Array UInt8) (position width : Int) :
    Settles cap maybe ((offsetAt data position width).mapError .decode) fun _ => True :=
  settles_mapError fun _ _ => trivial

theorem settles_windowsFrom (f : TupleFrame) (data : Array UInt8) :
    ∀ (index used p : Nat) (ls : List Layout), (∀ l ∈ ls, 0 < l.alignment) →
      Settles cap maybe (windowsFrom f data index used p ls) fun ws => ws.length = ls.length
  | _, _, _, [], _ => settles_ok rfl
  | index, used, p, l :: ls, h => by
    obtain ⟨h1, h2⟩ := List.forall_mem_cons.1 h
    rw [windowsFrom, if_neg h1.ne']
    have hstop : Settles cap maybe ((memberStop f data index used (alignUp p l.alignment) ls.isEmpty l).mapError .decode)
        fun _ => True := settles_mapError fun _ _ => trivial
    refine hstop.bind fun stop _ => ?_
    by_cases hout : stop < alignUp p l.alignment ∨ f.tableStart < stop
    · simp only [if_pos hout]
      exact settles_error (.invalid _)
    · simp only [if_neg hout]
      exact (settles_windowsFrom f data _ _ stop ls h2).bind fun ws hws => settles_ok (by simpa using hws)

theorem settles_windows (data : Array UInt8) {ls : List Layout} (hls : ls ≠ []) (hl : ∀ l ∈ ls, 0 < l.alignment) :
    Settles cap maybe (windows data ls) fun ws => ws.length = ls.length := by
  unfold windows
  rw [if_neg (by simpa using hls)]
  simp only
  split
  · exact settles_error (.invalid _)
  refine (settles_windowsFrom _ data 0 0 0 ls hl).bind fun ws hws => ?_
  exact (settles_mapError fun _ _ => trivial).bind fun _ _ => settles_ok hws

/-- The windows of members, one for each of their types. -/
theorem settles_memberWindows (data : Array UInt8) {ts : List Ty} (hts : ts ≠ []) :
    Settles cap maybe (windows data (ts.map Layout.ofTy)) fun ws => ws.length = ts.length := by
  exact (settles_windows data (by simpa using hts) Ty.alignment_pos_of_mem).mono fun ws hws => by rw [hws, List.length_map]

theorem length_of_windows {data : Array UInt8} {ts : List Ty} {ws : List Window}
    (h : windows data (ts.map Layout.ofTy) = .ok ws) : ws.length = ts.length := by
  have hts : ts ≠ [] := by
    rintro rfl
    cases h
  have hsettles : Settles none False (windows data (ts.map Layout.ofTy)) fun ws => ws.length = ts.length :=
    settles_memberWindows data hts
  exact hsettles.ok h

theorem settles_frame (data : Array UInt8) {fixedSize : Option Nat} (h : fixedSize ≠ some 0) :
    Settles cap maybe (frame data fixedSize) fun _ => True := by
  unfold frame
  split
  · exact settles_ok trivial
  cases fixedSize with
  | some n =>
    simp only [if_neg fun h0 => h (congrArg some h0)]
    split
    · exact settles_error (.invalid _)
    · exact settles_ok trivial
  | none =>
    refine (settles_offsetAt data _ _).bind fun table _ => ?_
    split
    · exact settles_error (.invalid _)
    · exact settles_ok trivial

theorem settles_elementWindow (data : Array UInt8) (f : CollectionFrame) {l : Layout} (hl : 0 < l.alignment) (i : Nat) :
    Settles cap maybe (elementWindow data f l i) fun _ => True := by
  unfold elementWindow
  cases l.fixedSize with
  | some n => exact settles_ok trivial
  | none =>
    have hprevious : Settles cap maybe (previousStop data f i) fun _ => True := by
      cases i with
      | zero => exact settles_ok trivial
      | succ i => exact settles_offsetAt data _ _
    refine hprevious.bind fun previous _ => ?_
    rw [if_neg hl.ne']
    refine (settles_offsetAt data _ _).bind fun stop _ => ?_
    split
    · exact settles_error (.invalid _)
    · exact settles_ok trivial

end Framing

namespace Gvariant

open Get Framing

variable {c : Codec}

/-! ## Readers -/

theorem ends_getScalar (o : ByteOrder) : ∀ b : Basic, Ends cap maybe (getScalar o b) (Scalar.Conforms b)
  | .int k => (ends_int (pos_of_dvd_eight k.width_dvd_eight)).map fun _ h => Scalar.conforms_int h
  | .boolean => (ends_boolean (by decide)).map fun _ _ => ⟨rfl, rfl⟩
  | .double => ends_double.map fun _ _ => ⟨rfl, rfl⟩
  | .text .string => (ends_string _ o).map fun _ h => Scalar.conforms_text h rfl
  | .text .objectPath => (ends_objectPath _ o).map fun _ h => Scalar.conforms_text h.1 h.2
  | .text .signature => (ends_signature false _).map fun _ h => Scalar.conforms_text h.1 h.2

/-- There are no caps inside of a window. -/
theorem settles_inside {get : Get Value} {Q : Value → Prop} (h : Ends cap maybe get Q) (p : Int) (bs : List UInt8) :
    Settles cap maybe (inside p bs get) Q := h.run nofun

theorem ends_getElements {l : Layout} {get : Get Value} {Q : Value → Prop} (hget : Ends cap maybe get Q)
    (hl : 0 < l.alignment) (hs : l.fixedSize ≠ some 0) :
    Ends cap maybe (getElements l get) fun vs => ∀ v ∈ vs, Q v := by
  refine ends_position.bind fun base _ => ends_readAll.bind fun bs _ => ?_
  refine (ends_ofExcept (settles_frame _ hs)).bind fun f _ => ends_ofExcept ?_
  have hall := settles_mapM (l := List.range f.count) (Q := fun _ => Q) fun i _ =>
    (settles_elementWindow bs.toArray f hl i).bind fun w _ => settles_inside hget (base + w.start) (w.of bs.toArray)
  exact hall.mono fun vs hvs => ((List.forall₂_and_left _ _).1 (hvs.flip.imp fun v i h => ⟨h, trivial⟩)).1

theorem ends_getMembers {get : Ty → Get Value} {Q : Ty → Value → Prop} {ts : List Ty} (hts : ts ≠ [])
    (hget : ∀ t ∈ ts, Ends cap maybe (get t) (Q t)) : Ends cap maybe (getMembers get ts) (List.Forall₂ Q ts) := by
  refine ends_position.bind fun base _ => ends_readAll.bind fun bs _ => ?_
  refine (ends_ofExcept (settles_memberWindows bs.toArray hts)).bind fun ws hws => ends_ofExcept ?_
  have hall := settles_mapM (l := ws.zip ts) (Q := fun m => Q m.2) fun m hm =>
    settles_inside (hget m.2 (List.of_mem_zip hm).2) (base + m.1.start) (m.1.of bs.toArray)
  refine hall.mono fun vs hvs => ?_
  rwa [← List.forall₂_map_left_iff, List.map_snd_zip hws.ge] at hvs

/-- **Reading gives a well-formed value of the type, or refuses the input.** -/
theorem ends_get : ∀ (room : Nat) (t : Ty), t.isFormed = true → Ends cap maybe (get c room t) (Value.Conforms t)
  | 0, _, _ => ends_fail
  | room + 1, t, ht => by
    refine (ends_pad _).bind fun _ _ => ?_
    cases t with
    | basic b => exact (ends_getScalar c.order b).map fun s hs => Value.conforms_scalar hs
    | array t =>
      have htf := ht
      simp only [Ty.isFormed, Bool.and_eq_true] at htf
      have hs : (Layout.ofTy t).fixedSize ≠ some 0 := fun h0 => absurd (Ty.fixedSize_pos htf.1 h0) (lt_irrefl 0)
      exact (ends_getElements (ends_get room t htf.1) t.gvariantAlignment_pos hs).map
        fun vs hvs => Value.conforms_array ht hvs
    | struct ts =>
      have htf := ht
      simp only [Ty.isFormed, Bool.and_eq_true, Bool.not_eq_true', List.isEmpty_eq_false_iff, Ty.areMembers_iff] at htf
      exact (ends_getMembers htf.1.1 fun t hmem => ends_get room t (htf.1.2 t hmem).1).map
        fun vs hvs => Value.conforms_struct ht hvs
    | entry k t =>
      have htf := ht
      simp only [Ty.isFormed, Bool.and_eq_true] at htf
      have hmembers : ∀ u ∈ [.basic k, t], Ends cap maybe (get c room u) (Value.Conforms u) :=
        List.forall_mem_cons.2 ⟨ends_get room (.basic k) rfl, List.forall_mem_singleton.2 (ends_get room t htf.1.1)⟩
      refine (ends_getMembers (by simp) hmembers).bind fun vs hvs => ?_
      obtain ⟨s, v, rfl, rfl, rfl⟩ := eq_of_tys_entry (Value.tys_of_forall₂ (hvs.imp fun _ _ hv => hv.ty))
      have hwf := Value.areWellFormed_iff.1 (Value.areWellFormed_of_forall₂ hvs)
      refine ends_pure (Value.conforms_entry ht ⟨rfl, ?_⟩ ⟨rfl, ?_⟩)
      · exact hwf (.scalar s) List.mem_cons_self
      · exact hwf v (List.mem_cons_of_mem _ List.mem_cons_self)
    | variant =>
      refine ends_position.bind fun base _ => ends_readAll.bind fun bs _ => ?_
      split
      · exact ends_fail
      rename_i value signature _
      have htype : Settles cap maybe ((signatureType c signature).mapError .decode)
          fun t => Signature.Accepts c.reading {} t := settles_mapError fun t h => (signatureType_eq_ok.1 h).2.2
      refine (ends_ofExcept htype).bind fun t hacc => ?_
      exact (ends_ofExcept (settles_inside (ends_get room t hacc.isFormed) base value)).map
        fun v hv => Value.conforms_variant (hacc.isEntry_eq_false rfl) hv
    | maybe t =>
      have htf := ht
      simp only [Ty.isFormed, Bool.and_eq_true] at htf
      have hjust (base : Int) (content : List UInt8) : Ends cap maybe (do
          return Value.just (← Get.ofExcept (inside base content (get c room t)))) (Value.Conforms (.maybe t)) :=
        (ends_ofExcept (settles_inside (ends_get room t htf.1) base content)).map fun v hv => Value.conforms_just ht hv
      refine ends_position.bind fun base _ => ends_readAll.bind fun bs _ => ?_
      split
      · exact ends_pure ⟨rfl, ht⟩
      split
      · exact hjust base bs
      split
      · exact ends_fail
      · exact hjust base bs.dropLast

end Gvariant

end Marshal
