import Marshal.Proofs.Dbus.Layout
import Marshal.Proofs.Formation
import Marshal.Proofs.Gvariant.Outcome
/-!
# One child at a time

A decoder can be asked for the child at an index. In D-Bus it reads the whole container first; in GVariant it goes to
the window of the child and looks at nothing else. Both give what decoding the container gives, and in GVariant children
that were asked for one by one, until there was none, are all there is to the container.

What the two ways of reading a GVariant container share is an item for each index (`Indexed`): reading the container is
reading every item, and asking for a child is reading one, after a check of the index.
-/
namespace Marshal

/-- Whether a lookup gives each child at its index and refuses every other index. -/
structure LooksUp (child : Int → Except Error Value) (cs : List Value) : Prop where
  found {i : Nat} {v : Value} : cs[i]? = some v → child i = .ok v
  refused {i : Int} : i < 0 ∨ cs.length ≤ i → ∃ e, child i = .error e ∧ e.kind = .index

theorem Rejection.kind_ne_index {cap : Option Int} {maybe : Prop} {e : Error} (h : Rejection cap maybe e) :
    e.kind ≠ .index := by
  cases h <;> exact nofun

/-- A lookup that checks its index against a number of items and then reads the item, which is a failure of another kind
when it fails. -/
structure Indexed (n : Nat) (item : Nat → Except Error Value) (child : Int → Except Error Value) : Prop where
  within {i : Nat} : i < n → child i = item i
  outside {i : Int} : i < 0 ∨ n ≤ i → ∃ e, child i = .error e ∧ e.kind = .index
  failed {i : Nat} {e : Error} : item i = .error e → e.kind ≠ .index

/-- That children are what is read at each index. -/
def AreItems (n : Nat) (item : Nat → Except Error Value) (cs : List Value) : Prop :=
  cs.length = n ∧ ∀ i v, cs[i]? = some v → item i = .ok v

namespace Indexed

variable {n : Nat} {item : Nat → Except Error Value} {child : Int → Except Error Value} {cs : List Value}

theorem looksUp (h : Indexed n item child) (hcs : AreItems n item cs) : LooksUp child cs where
  found {i v} hv := by
    obtain ⟨hi, -⟩ := List.getElem?_eq_some_iff.1 hv
    rw [h.within (hcs.1 ▸ hi)]
    exact hcs.2 i v hv
  refused hi := h.outside (hcs.1 ▸ hi)

/-- **Children that were found up to the first index that is refused are all the items.** -/
theorem areItems (h : Indexed n item child) (hfound : ∀ i v, cs[i]? = some v → child (i : Nat) = .ok v)
    (hend : ∃ e, child cs.length = .error e ∧ e.kind = .index) : AreItems n item cs := by
  have hle : cs.length ≤ n := by
    by_contra hlt
    obtain ⟨e, he, -⟩ := h.outside (i := n) (.inr le_rfl)
    rw [hfound n _ (List.getElem?_eq_getElem (not_le.1 hlt))] at he
    cases he
  have hge : n ≤ cs.length := by
    by_contra hlt
    obtain ⟨e, he, hk⟩ := hend
    rw [h.within (not_le.1 hlt)] at he
    exact h.failed he hk
  refine ⟨le_antisymm hle hge, fun i v hv => ?_⟩
  obtain ⟨hi, -⟩ := List.getElem?_eq_some_iff.1 hv
  rw [← h.within (lt_of_lt_of_le hi hle)]
  exact hfound i v hv

end Indexed

/-! ## Lists by index -/

theorem forall₂_iff_getElem? {α β : Type} {R : α → β → Prop} : ∀ {xs : List α} {ys : List β},
    List.Forall₂ R xs ys ↔ ys.length = xs.length ∧ ∀ (i : Nat) (x : α) (y : β), xs[i]? = some x → ys[i]? = some y → R x y
  | [], ys => by
    rw [List.forall₂_nil_left_iff, List.length_nil, List.length_eq_zero_iff]
    exact ⟨fun h => ⟨h, nofun⟩, And.left⟩
  | x :: xs, [] => ⟨nofun, nofun⟩
  | x :: xs, y :: ys => by
    rw [List.forall₂_cons, forall₂_iff_getElem?, List.length_cons, List.length_cons, Nat.succ_inj]
    constructor
    · rintro ⟨hxy, hlen, h⟩
      refine ⟨hlen, fun i a b ha hb => ?_⟩
      cases i with
      | zero => cases ha; cases hb; exact hxy
      | succ i => exact h i a b ha hb
    · rintro ⟨hlen, h⟩
      exact ⟨h 0 x y rfl rfl, hlen, fun i a b ha hb => h (i + 1) a b ha hb⟩

theorem mapM_range_eq_ok_iff {n : Nat} {item : Nat → Except Error Value} {cs : List Value} :
    (List.range n).mapM item = .ok cs ↔ AreItems n item cs := by
  rw [mapM_eq_ok_iff, forall₂_iff_getElem?, AreItems, List.length_range]
  refine and_congr_right fun hlen => ⟨fun h i v hv => ?_, fun h i j v hj hv => ?_⟩
  · obtain ⟨hi, -⟩ := List.getElem?_eq_some_iff.1 hv
    exact h i i v (List.getElem?_range (hlen ▸ hi)) hv
  · obtain ⟨hi, rfl⟩ := List.getElem?_eq_some_iff.1 hj
    rw [List.getElem_range]
    exact h i v hv

namespace Codec

theorem room_eq {c : Codec} (h : 0 ≤ c.maxDepth) : c.room = c.childRoom + 1 := by
  unfold room childRoom
  omega

end Codec

/-! ## D-Bus -/

namespace Dbus

open Get

/-- The whole container is read, and then one of its children is given. -/
theorem looksUp_decodeChild {c : Codec} (hc : c.format = .dbus) {data : List UInt8} {t : Ty} {v : Value}
    (hi : Codec.isIndexable t = true) (h : c.decode none data t = .ok v) :
    LooksUp (c.decodeChild none data t) v.children := by
  rw [decode_eq hc] at h
  obtain ⟨s, hs, hrest⟩ := run_eq_ok.1 h
  have hchild (i : Int) : c.decodeChild none data t i = run (getChild c t i) ⟨0, data, []⟩ := by
    have hget : c.getChild t i = getChild c t i := by rw [Codec.getChild, if_pos hi, hc]
    rw [← hget]
    rfl
  constructor
  · intro i w hw
    rw [hchild]
    refine run_eq_ok.2 ⟨s, bind_eq_ok.2 ⟨v, s, hs, ?_⟩, hrest⟩
    simp only [Int.toNat_natCast, hw, if_neg (not_lt.2 (Int.natCast_nonneg i))]
    rfl
  · intro i hout
    refine ⟨.noChild t v.children.length i, ?_, rfl⟩
    rw [hchild]
    refine run_eq_error (?_ : getChild c t i ⟨0, data, []⟩ = .error _ s)
    refine bind_eq_error.2 (.inr ⟨v, s, hs, ?_⟩)
    by_cases hneg : i < 0
    · simp only [if_pos hneg]
      rfl
    · have hnone : v.children[i.toNat]? = none := List.getElem?_eq_none (by omega)
      simp only [if_neg hneg, hnone]
      rfl

end Dbus

/-! ## GVariant -/

namespace Gvariant

open Get Framing

variable {c : Codec} {data : List UInt8}

theorem decodeChild_eq (hc : c.format = .gvariant) {t : Ty} (hi : Codec.isIndexable t = true) (i : Int) :
    c.decodeChild none data t i = run (getChild c t i) ⟨0, data, []⟩ := by
  have hget : c.getChild t i = getChild c t i := by rw [Codec.getChild, if_pos hi, hc]
  rw [← hget]
  rfl

/-! ### Arrays -/

/-- One element of an array, read from its window. -/
def readElement (data : List UInt8) (l : Layout) (get : Get Value) (f : CollectionFrame) (i : Nat) :
    Except Error Value := do
  inWindow 0 data.toArray (← elementWindow data.toArray f l i) get

theorem run_getElements_eq_bind {l : Layout} {get : Get Value} :
    run (getElements l get) ⟨0, data, []⟩ =
      frame data.toArray l.fixedSize >>= fun f => (List.range f.count).mapM (readElement data l get f) :=
  run_getElements_bind

theorem decodeChild_array (hc : c.format = .gvariant) (t : Ty) (i : Int) :
    c.decodeChild none data (.array t) i =
      frame data.toArray (Layout.ofTy t).fixedSize >>= fun f =>
        if i < 0 ∨ (f.count : Int) ≤ i then .error (.noElement f.count i)
        else readElement data (Layout.ofTy t) (get c c.childRoom t) f i.toNat := by
  rw [decodeChild_eq hc rfl]
  simp only [getChild]
  rw [run_position_bind, run_readAll_bind, run_ofExcept_bind]
  simp only [run_ofExcept, itemWindow]
  cases frame data.toArray (Layout.ofTy t).fixedSize with
  | error e => rfl
  | ok f =>
    change (if _ then _ else _ : Except Error Window) >>= _ = (if _ then _ else _ : Except Error Value)
    split <;> rfl

theorem readElement_error {t : Ty} (ht : t.isFormed = true) {room : Nat} {f : CollectionFrame} {i : Nat} {e : Error}
    (h : readElement data (Layout.ofTy t) (get c room t) f i = .error e) : e.kind ≠ .index := by
  have hsettles : Settles none False (readElement data (Layout.ofTy t) (get c room t) f i) (Value.Conforms t) :=
    (settles_elementWindow _ f t.gvariantAlignment_pos i).bind fun w _ => settles_inside (ends_get room t ht) _ _
  exact (hsettles.error h).kind_ne_index

/-- The elements of an array are found at their indices once its frame is read. -/
theorem indexed_array (hc : c.format = .gvariant) {t : Ty} (ht : t.isFormed = true) {f : CollectionFrame}
    (hf : frame data.toArray (Layout.ofTy t).fixedSize = .ok f) :
    Indexed f.count (readElement data (Layout.ofTy t) (get c c.childRoom t) f)
      (c.decodeChild none data (.array t)) where
  within {i} hi := by
    rw [decodeChild_array hc, hf]
    simp only [Bind.bind, Except.bind]
    rw [if_neg (by omega), Int.toNat_natCast]
  outside {i} hi := by
    refine ⟨.noElement f.count i, ?_, rfl⟩
    rw [decodeChild_array hc, hf]
    exact if_pos hi
  failed := readElement_error ht

/-! ### Members -/

/-- One member of a tuple, read from its window once all of them are located. -/
def readMember (data : List UInt8) (get : Ty → Get Value) (ts : List Ty) (i : Nat) : Except Error Value := do
  let ws ← windows data.toArray (ts.map Layout.ofTy)
  inWindow 0 data.toArray (ws.getD i ⟨0, 0⟩) (get (ts.getD i .variant))

theorem readMember_eq {get : Ty → Get Value} {ts : List Ty} {ws : List Window} {i : Nat} {t : Ty} {w : Window}
    (h : windows data.toArray (ts.map Layout.ofTy) = .ok ws) (ht : ts[i]? = some t) (hw : ws[i]? = some w) :
    readMember data get ts i = inWindow 0 data.toArray w (get t) := by
  rw [readMember, h]
  change inWindow 0 data.toArray (ws.getD i ⟨0, 0⟩) (get (ts.getD i .variant)) = _
  rw [List.getD_eq_getElem?_getD, List.getD_eq_getElem?_getD, ht, hw]
  rfl

theorem run_getMembers_iff_areItems {get : Ty → Get Value} {ts : List Ty} (hts : ts ≠ []) {members : List Value} :
    run (getMembers get ts) ⟨0, data, []⟩ = .ok members ↔ AreItems ts.length (readMember data get ts) members := by
  rw [run_getMembers_bind]
  cases hw : windows data.toArray (ts.map Layout.ofTy) with
  | error e =>
    -- there is a first member, and reading it fails
    refine ⟨nofun, fun ⟨hlen, h⟩ => ?_⟩
    obtain ⟨v, hv⟩ := List.exists_mem_of_length_pos (hlen ▸ List.length_pos_iff.2 hts)
    obtain ⟨i, hi⟩ := List.mem_iff_getElem?.1 hv
    have hread := h i v hi
    rw [readMember, hw] at hread
    cases hread
  | ok ws =>
    have hlen := length_of_windows hw
    change (ws.zip ts).mapM _ = _ ↔ _
    rw [mapM_eq_ok_iff, forall₂_iff_getElem?, List.length_zip, hlen, min_self]
    refine and_congr_right fun hmembers => ⟨fun h i v hv => ?_, fun h i m v hm hv => ?_⟩
    · obtain ⟨hi, -⟩ := List.getElem?_eq_some_iff.1 hv
      have hts := List.getElem?_eq_getElem (hmembers ▸ hi)
      have hws := List.getElem?_eq_getElem (hlen ▸ hmembers ▸ hi)
      rw [readMember_eq hw hts hws]
      exact h i (ws[i], ts[i]) v (List.getElem?_zip_eq_some.2 ⟨hws, hts⟩) hv
    · obtain ⟨hws, hts⟩ := List.getElem?_zip_eq_some.1 hm
      exact (readMember_eq hw hts hws).symm.trans (h i v hv)

theorem getChild_members {t : Ty} {ts : List Ty} (hts : t.members? = some ts) (i : Int) :
    getChild c t i =
      if i < 0 then throw (.noMember t ts.length i)
      else
        match ts[i.toNat]? with
        | none => throw (.noMember t ts.length i)
        | some member => Get.position >>= fun base => Get.readAll >>= fun bs =>
          Get.ofExcept (memberWindow bs.toArray (ts.map Layout.ofTy) i) >>= fun w =>
            Get.ofExcept (inWindow base bs.toArray w (get c c.childRoom member)) := by
  cases t with
  | struct | entry =>
    cases hts
    simp only [getChild, Ty.members?]
    split <;> rfl
  | _ => cases hts

/-- The members of a struct or dict entry are found at their indices. -/
theorem indexed_members (hc : c.format = .gvariant) {t : Ty} {ts : List Ty} (hts : t.members? = some ts)
    (hne : ts ≠ []) (hf : ∀ u ∈ ts, u.isFormed = true) :
    Indexed ts.length (readMember data (get c c.childRoom) ts) (c.decodeChild none data t) := by
  have hindexable : Codec.isIndexable t = true := by
    cases t with
    | struct | entry => rfl
    | _ => cases hts
  constructor
  · intro i hi
    rw [decodeChild_eq hc hindexable, getChild_members hts, if_neg (by omega), Int.toNat_natCast,
      List.getElem?_eq_getElem hi]
    simp only
    rw [run_position_bind, run_readAll_bind, run_ofExcept_bind]
    simp only [run_ofExcept, memberWindow, List.length_map]
    rw [if_neg (by omega), readMember, List.getD_eq_getElem?_getD, List.getElem?_eq_getElem hi]
    cases windows data.toArray (ts.map Layout.ofTy) <;> rfl
  · intro i hi
    refine ⟨.noMember t ts.length i, ?_, rfl⟩
    rw [decodeChild_eq hc hindexable, getChild_members hts]
    by_cases hneg : i < 0
    · rw [if_pos hneg]
      rfl
    · rw [if_neg hneg, List.getElem?_eq_none (by omega)]
      rfl
  · intro i e h
    have hmember : (ts.getD i .variant).isFormed = true := by
      rw [List.getD_eq_getElem?_getD]
      cases hi : ts[i]? with
      | none => rfl
      | some u => exact hf u (List.mem_of_getElem? hi)
    have hsettles : Settles none False (readMember data (get c c.childRoom) ts i) fun _ => True :=
      (settles_memberWindows data.toArray hne).bind fun ws _ =>
        (settles_inside (ends_get c.childRoom _ hmember) _ _).mono fun _ _ => trivial
    exact (hsettles.error h).kind_ne_index

/-! ### Whole containers -/

theorem decode_array_iff (hc : c.format = .gvariant) (hd : 0 ≤ c.maxDepth) {t : Ty} {cs : List Value} :
    (∃ v, c.decode none data (.array t) = .ok v ∧ v.ty = .array t ∧ v.children = cs) ↔
      run (getElements (Layout.ofTy t) (get c c.childRoom t)) ⟨0, data, []⟩ = .ok cs := by
  rw [decode_eq hc, Codec.room_eq hd]
  constructor
  · rintro ⟨v, hv, -, rfl⟩
    obtain ⟨items, hitems, rfl⟩ := (inside_array_eq_ok (dvd_zero _)).1 hv
    exact hitems
  · intro h
    exact ⟨.array t cs, (inside_array_eq_ok (dvd_zero _)).2 ⟨cs, h, rfl⟩, rfl, rfl⟩

theorem decode_members_iff (hc : c.format = .gvariant) (hd : 0 ≤ c.maxDepth) {t : Ty} {ts : List Ty}
    (hts : t.members? = some ts) (hne : ts ≠ []) (hf : ∀ u ∈ ts, u.isFormed = true) {cs : List Value} :
    (∃ v, c.decode none data t = .ok v ∧ v.ty = t ∧ v.children = cs) ↔
      run (getMembers (get c c.childRoom) ts) ⟨0, data, []⟩ = .ok cs := by
  have htys {cs : List Value} (h : run (getMembers (get c c.childRoom) ts) ⟨0, data, []⟩ = .ok cs) :
      Value.tys cs = ts := by
    have hends : Ends none False (getMembers (get c c.childRoom) ts) (List.Forall₂ Value.Conforms ts) :=
      ends_getMembers hne fun u hu => ends_get c.childRoom u (hf u hu)
    exact Value.tys_of_forall₂ (((hends.run (s := ⟨0, data, []⟩) nofun).ok h).imp fun _ _ hv => hv.ty)
  rw [decode_eq hc, Codec.room_eq hd]
  cases t with
  | struct us =>
    cases hts
    constructor
    · rintro ⟨v, hv, -, rfl⟩
      obtain ⟨members, hmembers, rfl⟩ := (inside_struct_eq_ok (dvd_zero _)).1 hv
      exact hmembers
    · intro h
      refine ⟨.struct cs, (inside_struct_eq_ok (dvd_zero _)).2 ⟨cs, h, rfl⟩, ?_, rfl⟩
      rw [Value.ty, htys h]
  | entry k u =>
    cases hts
    constructor
    · rintro ⟨v, hv, -, rfl⟩
      obtain ⟨members, hmembers, rfl⟩ := (inside_entry_eq_ok (dvd_zero _)).1 hv
      obtain ⟨s, w, rfl, -, -⟩ := eq_of_tys_entry (htys hmembers)
      exact hmembers
    · intro h
      obtain ⟨s, w, rfl, rfl, rfl⟩ := eq_of_tys_entry (htys h)
      exact ⟨.entry s w, (inside_entry_eq_ok (dvd_zero _)).2 ⟨_, h, rfl⟩, rfl, rfl⟩
  | _ => cases hts

/-- What is needed of the parts of a container that has children. -/
theorem indexable_cases {t : Ty} (ht : t.isFormed = true) (hi : Codec.isIndexable t = true) :
    (∃ u, t = .array u ∧ u.isFormed = true) ∨
      ∃ ts, t.members? = some ts ∧ ts ≠ [] ∧ ∀ u ∈ ts, u.isFormed = true := by
  cases t with
  | array u =>
    simp only [Ty.isFormed, Bool.and_eq_true] at ht
    exact .inl ⟨u, rfl, ht.1⟩
  | struct ts =>
    simp only [Ty.isFormed, Bool.and_eq_true, Bool.not_eq_true', List.isEmpty_eq_false_iff, Ty.areMembers_iff] at ht
    exact .inr ⟨ts, rfl, ht.1.1, fun u hu => (ht.1.2 u hu).1⟩
  | entry k u =>
    simp only [Ty.isFormed, Bool.and_eq_true] at ht
    refine .inr ⟨_, rfl, List.cons_ne_nil _ _, List.forall_mem_cons.2 ⟨rfl, List.forall_mem_singleton.2 ht.1.1⟩⟩
  | _ => cases hi

/-- A child is where decoding the whole container finds it. -/
theorem looksUp_decodeChild (hc : c.format = .gvariant) (hd : 0 ≤ c.maxDepth) {t : Ty} (ht : t.isFormed = true)
    (hi : Codec.isIndexable t = true) {cs : List Value}
    (h : ∃ v, c.decode none data t = .ok v ∧ v.ty = t ∧ v.children = cs) : LooksUp (c.decodeChild none data t) cs := by
  rcases indexable_cases ht hi with ⟨u, rfl, hu⟩ | ⟨ts, hts, hne, hf⟩
  · rw [decode_array_iff hc hd, run_getElements_eq_bind, except_bind_eq_ok] at h
    obtain ⟨f, hf, hitems⟩ := h
    exact (indexed_array hc hu hf).looksUp (mapM_range_eq_ok_iff.1 hitems)
  · rw [decode_members_iff hc hd hts hne hf, run_getMembers_iff_areItems hne] at h
    exact (indexed_members hc hts hne hf).looksUp h

/-- **Children asked for one by one are all that there is.** -/
theorem decode_of_decodeChild (hc : c.format = .gvariant) (hd : 0 ≤ c.maxDepth) {t : Ty} (ht : t.isFormed = true)
    (hi : Codec.isIndexable t = true) {cs : List Value}
    (hfound : ∀ i v, cs[i]? = some v → c.decodeChild none data t (i : Nat) = .ok v)
    (hend : ∃ e, c.decodeChild none data t cs.length = .error e ∧ e.kind = .index) :
    ∃ v, c.decode none data t = .ok v ∧ v.ty = t ∧ v.children = cs := by
  rcases indexable_cases ht hi with ⟨u, rfl, hu⟩ | ⟨ts, hts, hne, hf⟩
  · rw [decode_array_iff hc hd, run_getElements_eq_bind, except_bind_eq_ok]
    have hsize : (Layout.ofTy u).fixedSize ≠ some 0 := fun h0 => absurd (Ty.fixedSize_pos hu h0) (lt_irrefl 0)
    have hframe : Settles none False (frame data.toArray (Layout.ofTy u).fixedSize) fun _ => True :=
      settles_frame _ hsize
    cases hf : frame data.toArray (Layout.ofTy u).fixedSize with
    | error e =>
      obtain ⟨e', he, hk⟩ := hend
      rw [decodeChild_array hc, hf] at he
      cases he
      exact absurd hk (hframe.error hf).kind_ne_index
    | ok f =>
      exact ⟨f, rfl, mapM_range_eq_ok_iff.2 ((indexed_array hc hu hf).areItems hfound hend)⟩
  · rw [decode_members_iff hc hd hts hne hf, run_getMembers_iff_areItems hne]
    exact (indexed_members hc hts hne hf).areItems hfound hend

end Gvariant

namespace Codec

/-- **Reading one child agrees with decoding the container.** Where decoding gives a container, each of its children is
found at its index, and no other index has one. In GVariant, children that are found from index zero on, up to the first
index that is refused, are the children of the container that decoding gives. -/
theorem decodeChild_iff_decode (c : Codec) (hd : 1 ≤ c.maxDepth) (data : List UInt8) (t : Ty) (ht : t.Constructed)
    (hi : isIndexable t = true) :
    (∀ v, c.decode none data t = .ok v → LooksUp (c.decodeChild none data t) v.children) ∧
    (c.format = .gvariant → ∀ cs : List Value,
      (∀ (i : Nat) v, cs[i]? = some v → c.decodeChild none data t i = .ok v) →
      (∃ e, c.decodeChild none data t cs.length = .error e ∧ e.kind = .index) →
        ∃ v, c.decode none data t = .ok v ∧ v.ty = t ∧ v.children = cs) := by
  have htf := Ty.constructed_iff.1 ht
  have hd' : 0 ≤ c.maxDepth := by omega
  constructor
  · intro v hv
    cases hc : c.format with
    | dbus => exact Dbus.looksUp_decodeChild hc hi hv
    | gvariant =>
      have hty : v.ty = t := by
        have hrun : Settles none False (c.decode none data t) (Value.Conforms t) := by
          rw [Gvariant.decode_eq hc]
          exact Gvariant.settles_inside (Gvariant.ends_get c.room t htf) 0 data
        exact (hrun.ok hv).ty
      exact Gvariant.looksUp_decodeChild hc hd' htf hi ⟨v, hv, hty, rfl⟩
  · intro hc cs hfound hend
    exact Gvariant.decode_of_decodeChild hc hd' htf hi hfound hend

/-- Two elements of one byte each, with their offsets behind them. -/
theorem decodeChild_iff_decode_nested :
    (1 : Int) ≤ 64 ∧ (Ty.array (.array .byte)).Constructed ∧ isIndexable (.array (.array .byte)) = true ∧
      ∃ v, decode ⟨.gvariant, .big, 64, 0⟩ none [7, 8, 1, 2] (.array (.array .byte)) = .ok v ∧
        v.children = [.array .byte [.scalar (.int .byte 7)], .array .byte [.scalar (.int .byte 8)]] := by
  have ht : (Ty.array (.array .byte)).Constructed := Ty.constructed_iff.2 rfl
  refine ⟨by decide, ht, rfl, ?_⟩
  obtain ⟨v, hv, -, hchildren⟩ :=
    (decodeChild_iff_decode ⟨.gvariant, .big, 64, 0⟩ (by decide) [7, 8, 1, 2] (.array (.array .byte)) ht rfl).2 rfl
      [.array .byte [.scalar (.int .byte 7)], .array .byte [.scalar (.int .byte 8)]]
      (fun
        | 0, _, hv => by cases hv; rfl
        | 1, _, hv => by cases hv; rfl)
      ⟨.noElement 2 2, rfl, rfl⟩
  exact ⟨v, hv, hchildren⟩

end Codec

end Marshal
