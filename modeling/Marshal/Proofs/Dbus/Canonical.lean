import Marshal.Proofs.Dbus.Layout
/-!
# What a D-Bus reader accepts is what the writer writes

A value that was read has a layout, and the bytes read agree with it (`finds_get`): the reader makes every check that
the writer makes. Padding is the only thing that it does not look at.
-/
namespace Marshal.Dbus

open Cell Get

variable {c : Codec} {o : ByteOrder} {p : Int}

theorem finds_getScalar (o : ByteOrder) (b : Basic) :
    Finds (getScalar o b) p fun bs s => s.basic = b ∧ scalarBytes o s = .ok bs := by
  cases b with
  | int k =>
    exact (finds_int (pos_of_dvd_eight k.width_dvd_eight)).map fun bs n h => ⟨rfl, h⟩
  | boolean =>
    exact (finds_boolean (by decide)).map fun bs b h => ⟨rfl, h⟩
  | double =>
    exact (finds_double o).map fun bs d h => ⟨rfl, congrArg Except.ok h⟩
  | text k =>
    cases k with
    | string =>
      exact (finds_string lengthWidth o).map fun bs s h => ⟨rfl, h.1⟩
    | objectPath =>
      exact (finds_objectPath lengthWidth o).map fun bs s h => ⟨rfl, h⟩
    | signature =>
      refine (finds_signature true (some .dbus)).map fun bs s h => ⟨rfl, ?_⟩
      obtain ⟨h, ts, hp⟩ := h
      rw [scalarBytes, hp]
      exact h

variable {get : Get Value} {f : Nat → Value → Except Error (List Cell)}

/-- What it is for a reader to find the layout of what it gives. -/
def FindsCells (get : Get Value) (f : Nat → Value → Except Error (List Cell)) : Prop :=
  ∀ q : Nat, Finds get q fun bs v => ∃ cs, f q v = .ok cs ∧ Matches cs bs

theorem finds_getUntil (hget : FindsCells get f) (stop : Int) : ∀ (n : Nat) (acc : List Value) (q : Nat),
    Finds (getUntil stop get n acc) q fun bs items =>
      ∃ new cs, items = acc.reverse ++ new ∧ inTurn f q new = .ok cs ∧ Matches cs bs
  | 0, acc, q => finds_pure ⟨[], [], (List.append_nil _).symm, rfl, matches_nil_iff.2 rfl⟩
  | n + 1, acc, q => by
    rw [getUntil]
    refine finds_position ?_
    split
    · refine (hget q).bind fun bs v hv => ?_
      obtain ⟨cs, h1, hm1⟩ := hv
      rw [← Nat.cast_add]
      refine (finds_getUntil hget stop n (v :: acc) (q + bs.length)).mono fun ds items h => ?_
      obtain ⟨new, es, rfl, h2, hm2⟩ := h
      refine ⟨v :: new, cs ++ es, by simp, inTurn_cons_eq_ok.2 ⟨cs, es, h1, ?_, rfl⟩, hm1.append hm2⟩
      rwa [hm1.length_eq]
    · exact finds_pure ⟨[], [], (List.append_nil _).symm, rfl, matches_nil_iff.2 rfl⟩

theorem finds_getArray (hget : FindsCells get f) (t : Ty) (q : Nat) :
    Finds (getArray c get t) q fun bs items => ∃ cs, arrayCells c f t items q = .ok cs ∧ Matches cs bs := by
  refine finds_ofExcept_bind fun a ha => ?_
  refine (finds_int (by decide : 0 < lengthWidth)).bind fun ls n hn => ?_
  rw [intBytes_eq_ok] at hn
  have hwidth : ls.length = lengthWidth := Integer.length_of_encode? hn
  obtain ⟨n, rfl⟩ := Int.eq_ofNat_of_zero_le (Integer.encode?_eq_some_iff.1 hn).1.1
  rw [hwidth, ← Nat.cast_add]
  simp only [Int.toNat_natCast]
  split
  · exact finds_fail_bind
  rename_i hlimit
  refine finds_pad.bind fun gap _ hgap => finds_has fun enough => ?_
  split
  · exact finds_remaining fun _ => finds_fail_bind
  refine finds_position ?_
  rw [← Nat.cast_add]
  refine (finds_getUntil hget _ n [] _).bind fun es items h => finds_position ?_
  obtain ⟨items, cs, rfl, hcs, hm⟩ := h
  split
  · exact finds_fail_bind
  rename_i hend
  have hlen : cs.length = n := by rw [hm.length_eq]; omega
  refine finds_pure ⟨given ls ++ (blank gap.length ++ cs), arrayCells_eq_ok.2 ⟨a, cs, ls, ha, ?_, ?_, ?_⟩, ?_⟩
  · rwa [← hgap]
  · rw [lengthOf_eq_ok, hlen]
    exact ⟨by omega, hn⟩
  · rw [hgap]
  · rw [List.append_nil]
    exact (matches_given_iff.2 rfl).append ((matches_blank_iff.2 rfl).append hm)

theorem finds_getEach {get : Ty → Get Value} : ∀ (ts : List Ty) (q : Nat),
    (∀ t ∈ ts, ∀ q : Nat, Finds (get t) q fun bs v => v.ty = t ∧ ∃ cs, f q v = .ok cs ∧ Matches cs bs) →
      Finds (getEach get ts) q fun bs members =>
        Value.tys members = ts ∧ ∃ cs, inTurn f q members = .ok cs ∧ Matches cs bs
  | [], q, _ => finds_pure ⟨rfl, [], rfl, matches_nil_iff.2 rfl⟩
  | t :: ts, q, hget => by
    refine (hget t (List.mem_cons_self ..) q).bind fun bs v hv => ?_
    obtain ⟨rfl, cs, h1, hm1⟩ := hv
    rw [← Nat.cast_add]
    refine (finds_getEach ts _ fun u hu => hget u (List.mem_cons_of_mem v.ty hu)).map fun ds members h => ?_
    obtain ⟨rfl, es, h2, hm2⟩ := h
    refine ⟨rfl, cs ++ es, inTurn_cons_eq_ok.2 ⟨cs, es, h1, ?_, rfl⟩, hm1.append hm2⟩
    rwa [hm1.length_eq]

theorem finds_getKey (room : Nat) (k : Basic) (q : Nat) :
    Finds (getKey c room k) q fun bs s => s.basic = k ∧ ∃ cs, cells c room q (.scalar s) = .ok cs ∧ Matches cs bs := by
  unfold getKey
  cases room with
  | zero => exact finds_fail_bind
  | succ room =>
    rw [if_neg (Nat.succ_ne_zero room)]
    refine finds_pad.bind fun pad _ hpad => (finds_getScalar c.order k).mono fun bs s h => ?_
    obtain ⟨rfl, h⟩ := h
    refine ⟨rfl, blank pad.length ++ given bs, cells_eq_ok.2 ⟨_, given bs, rfl, ?_, by rw [hpad]⟩, ?_⟩
    · exact except_map_eq_ok.2 ⟨bs, h, rfl⟩
    · exact (matches_blank_iff.2 rfl).append (matches_given_iff.2 rfl)

/-- **A value that was read has the layout of the bytes read.** -/
theorem finds_get (c : Codec) : ∀ (room : Nat) (t : Ty) (q : Nat),
    Finds (Dbus.get c room t) q fun bs v => v.ty = t ∧ ∃ cs, cells c room q v = .ok cs ∧ Matches cs bs
  | 0, _, _ => finds_fail
  | room + 1, t, q => by
    have ih := finds_get c room
    have ih' (t : Ty) : FindsCells (Dbus.get c room t) (cells c room) := fun q => (ih t q).mono fun bs v h => h.2
    refine finds_ofExcept_bind fun a ha => finds_pad.bind fun pad _ hpad => ?_
    rw [← Nat.cast_add]
    -- it is enough to find the content behind the padding
    suffices hcontent : ∀ {get : Get Value},
        Finds get (q + pad.length : Nat) (fun bs v => v.ty = t ∧
          ∃ cs, contentCells c (cells c room) v (q + pad.length) = .ok cs ∧ Matches cs bs) →
        Finds get (q + pad.length : Nat) fun bs v => v.ty = t ∧
          ∃ cs, cells c (room + 1) q v = .ok cs ∧ Matches cs (pad ++ bs) by
      apply hcontent
      cases t with
      | basic b =>
        refine (finds_getScalar c.order b).map fun bs s h => ?_
        obtain ⟨rfl, h⟩ := h
        exact ⟨rfl, given bs, except_map_eq_ok.2 ⟨bs, h, rfl⟩, matches_given_iff.2 rfl⟩
      | array t =>
        exact (finds_getArray (ih' t) t _).map fun bs items h => ⟨rfl, h⟩
      | struct ts =>
        refine (finds_getEach ts _ fun t _ q => ih t q).map fun bs members h => ?_
        obtain ⟨rfl, h⟩ := h
        exact ⟨rfl, h⟩
      | entry k t =>
        refine (finds_getKey room k _).bind fun bs s h => ?_
        obtain ⟨rfl, cs, h1, hm1⟩ := h
        rw [← Nat.cast_add]
        refine (ih t _).map fun ds w h => ?_
        obtain ⟨rfl, es, h2, hm2⟩ := h
        refine ⟨rfl, cs ++ es, ?_, hm1.append hm2⟩
        rw [contentCells, follow_eq_ok]
        exact ⟨cs, es, h1, by rwa [hm1.length_eq], rfl⟩
      | variant =>
        refine (finds_signature true none).bind fun bs s h => ?_
        obtain ⟨h, -⟩ := h
        cases hp : Signature.parse c.reading (Text.ofString s) with
        | error e => exact finds_fail
        | ok t =>
          rw [← Nat.cast_add]
          refine (ih t _).map fun ds w hw => ?_
          obtain ⟨rfl, es, h2, hm2⟩ := hw
          rw [(Signature.parse_eq_ok_iff.1 hp).1] at h
          refine ⟨rfl, given bs ++ es, ?_, (matches_given_iff.2 rfl).append hm2⟩
          rw [contentCells, follow_eq_ok]
          exact ⟨given bs, es, except_map_eq_ok.2 ⟨bs, h, rfl⟩, by rwa [length_given], rfl⟩
      | maybe t => exact finds_throw
    intro get h
    refine h.mono fun bs v hv => ?_
    obtain ⟨rfl, cs, hcs, hm⟩ := hv
    rw [hpad] at hcs
    refine ⟨rfl, blank pad.length ++ cs, cells_eq_ok.2 ⟨a, cs, ha, hcs, by rw [hpad]⟩, ?_⟩
    exact (matches_blank_iff.2 rfl).append hm

/-- **What is accepted is encoded again to the same bytes, but for padding.** -/
theorem normalizes_of_decode {c : Codec} (hc : c.format = .dbus) {data : List UInt8} {t : Ty} {v : Value}
    (h : c.decode none data t = .ok v) :
    ∃ cs b, cells c c.room 0 v = .ok cs ∧ c.encode none v = .ok b ∧ Normalizes cs data b.toList := by
  have hget : c.get t = Dbus.get c c.room t := by rw [Codec.get, hc]
  have hrun : Get.run (Dbus.get c c.room t) ⟨(0 : Nat), data, []⟩ = .ok v := by rw [← hget]; exact h
  obtain ⟨-, cs, hcs, hm⟩ := (finds_get c c.room t 0).of_run hrun
  refine ⟨cs, (render cs).toArray, hcs, ?_, hm.normalizes⟩
  rw [encode_eq hc, hcs]
  rfl

/-- The padding in front of a struct's second member holds anything. -/
theorem normalizes_of_decode_dirty :
    let c : Codec := { format := .dbus, order := .little }
    let data : List UInt8 := [7, 0xAA, 1, 0]
    let t : Ty := .struct [.byte, .basic (.int .uint16)]
    ∃ v, c.decode none data t = .ok v ∧
      ∃ cs b, cells c c.room 0 v = .ok cs ∧ c.encode none v = .ok b ∧ Normalizes cs data b.toList := by
  intro c data t
  obtain ⟨v, h⟩ : ∃ v, c.decode none data t = .ok v := by
    simp only [c, data, t]
    exact ⟨_, rfl⟩
  exact ⟨v, h, normalizes_of_decode rfl h⟩

end Marshal.Dbus
