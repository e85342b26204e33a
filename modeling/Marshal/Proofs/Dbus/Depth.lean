import Marshal.Proofs.Dbus.Layout
import Marshal.Proofs.Narrowing
/-!
# The depth limit in D-Bus

Raising the limit changes nothing of what is written for a value that was written before, and lowering it makes a reader
refuse the signature of what nests too deep, and nothing else, as long as the room stays the same.
-/
namespace Marshal.Dbus

open Cell Get

variable {c : Codec}

/-! ## Writing -/

theorem inTurn_of_inTurn {f g : Nat → Value → Except Error (List Cell)} :
    ∀ {vs : List Value} {p : Nat} {cs : List Cell}, (∀ p v cs, f p v = .ok cs → g p v = .ok cs) →
      inTurn f p vs = .ok cs → inTurn g p vs = .ok cs
  | [], _, _, _, h => h
  | v :: vs, _, _, hfg, h => by
    obtain ⟨as, bs, h1, h2, rfl⟩ := inTurn_cons_eq_ok.1 h
    exact inTurn_cons_eq_ok.2 ⟨as, bs, hfg _ v as h1, inTurn_of_inTurn hfg h2, rfl⟩

/-- What is written for a value does not depend on the limit, if anything is. -/
theorem cells_withDepth (d : Int) : ∀ {room p : Nat} {v : Value} {cs : List Cell}, cells c room p v = .ok cs →
    cells (c.withDepth d) room p v = .ok cs
  | room + 1, p, v, cs, h => by
    have ih (p : Nat) (v : Value) (cs : List Cell) : cells c room p v = .ok cs →
        cells (c.withDepth d) room p v = .ok cs := cells_withDepth d
    obtain ⟨a, body, ha, hb, rfl⟩ := cells_eq_ok.1 h
    refine cells_eq_ok.2 ⟨a, body, ha, ?_, rfl⟩
    cases v with
    | scalar s => exact hb
    | array t items =>
      obtain ⟨a, body, length, ha, hbody, hl, rfl⟩ := arrayCells_eq_ok.1 hb
      rw [lengthOf_eq_ok] at hl
      exact arrayCells_eq_ok.2 ⟨a, body, length, ha, inTurn_of_inTurn ih hbody, lengthOf_eq_ok.2 hl, rfl⟩
    | struct members => exact inTurn_of_inTurn ih hb
    | entry k w =>
      rw [contentCells, follow_eq_ok] at hb ⊢
      obtain ⟨as, bs, h1, h2, rfl⟩ := hb
      exact ⟨as, bs, ih _ _ _ h1, ih _ _ _ h2, rfl⟩
    | variant w =>
      rw [contentCells, follow_eq_ok] at hb ⊢
      obtain ⟨as, bs, h1, h2, rfl⟩ := hb
      exact ⟨as, bs, h1, ih _ _ _ h2, rfl⟩
    | nothing t => cases hb
    | just w => cases hb

/-! ## Reading -/

theorem basic_of_getScalar {o : ByteOrder} {b : Basic} {s s' : Source} {x : Scalar}
    (h : getScalar o b s = .ok x s') : x.basic = b := by
  cases b with
  | int k | boolean | double =>
    obtain ⟨_, _, -, h⟩ := bind_eq_ok.1 h
    cases h
    rfl
  | text k =>
    cases k <;>
    · obtain ⟨_, _, -, h⟩ := bind_eq_ok.1 h
      cases h
      rfl

/-- Items that were there before are among those that are given. -/
theorem subset_of_getUntil {get : Get Value} {stop : Int} : ∀ {n : Nat} {items vs : List Value} {s s' : Source},
    getUntil stop get n items s = .ok vs s' → items ⊆ vs
  | 0, items, vs, s, s', h => by
    cases h
    exact fun v hv => List.mem_reverse.2 hv
  | n + 1, items, vs, s, s', h => by
    rw [getUntil] at h
    obtain ⟨p, s₁, -, h⟩ := bind_eq_ok.1 h
    split at h
    · obtain ⟨v, s₂, -, h⟩ := bind_eq_ok.1 h
      exact List.Subset.trans (List.subset_cons_self v items) (subset_of_getUntil h)
    · cases h
      exact fun v hv => List.mem_reverse.2 hv

variable {low high : Get Value} {deep P : Value → Prop}

theorem narrows_getUntil (hget : Narrows deep P low high) (stop : Int) : ∀ (n : Nat) (items : List Value),
    (∀ v ∈ items, ¬ deep v) →
      Narrows (fun vs => ∃ v ∈ vs, deep v) (fun _ => True) (getUntil stop low n items) (getUntil stop high n items)
  | 0, items, h => narrows_pure trivial fun ⟨v, hv, hd⟩ => h v (List.mem_reverse.1 hv) hd
  | n + 1, items, h => by
    rw [getUntil, getUntil]
    refine Narrows.same_bind fun p => ?_
    split
    · refine hget.bind (fun v _ hn => ?_) fun v s vs s' _ hd hvs => ?_
      · exact narrows_getUntil hget stop n (v :: items) (List.forall_mem_cons.2 ⟨hn, h⟩)
      · exact ⟨trivial, v, subset_of_getUntil hvs List.mem_cons_self, hd⟩
    · exact narrows_pure trivial fun ⟨v, hv, hd⟩ => h v (List.mem_reverse.1 hv) hd

theorem narrows_getArray (d : Int) (t : Ty) (hget : Narrows deep P low high) :
    Narrows (fun vs => ∃ v ∈ vs, deep v) (fun _ => True) (getArray c low t) (getArray (c.withDepth d) high t) := by
  refine Narrows.same_bind fun a => Narrows.same_bind fun n => ?_
  simp only [Codec.withDepth_maxArrayLength]
  split
  · exact fun _ => lowers_error
  refine Narrows.same_bind fun _ => Narrows.same_bind fun enough => ?_
  split
  · exact Narrows.same_bind fun _ => fun _ => lowers_error
  refine Narrows.same_bind fun start => (narrows_getUntil hget _ _ [] nofun).bind (fun vs _ hn => ?_) ?_
  · refine Narrows.same_bind fun p => ?_
    split
    · exact fun _ => lowers_error
    · exact narrows_pure trivial hn
  · intro vs s vs' s' _ hd h
    obtain ⟨p, s₁, -, h⟩ := bind_eq_ok.1 h
    split at h
    · cases h
    · cases h
      exact ⟨trivial, hd⟩

theorem narrows_getEach {low high : Ty → Get Value} : ∀ ts : List Ty,
    (∀ t ∈ ts, Narrows deep (fun v => v.ty = t) (low t) (high t)) →
      Narrows (fun vs => ∃ v ∈ vs, deep v) (fun vs => Value.tys vs = ts) (getEach low ts) (getEach high ts)
  | [], _ => narrows_pure rfl nofun
  | t :: ts, h => by
    obtain ⟨h1, h2⟩ := List.forall_mem_cons.1 h
    have ih := narrows_getEach ts h2
    refine h1.bind (fun v hv hn => ih.map fun vs hvs => ⟨?_, ?_⟩) fun v s vs s' hv hd hvs => ?_
    · rw [Value.tys, hv, hvs]
    · rw [List.exists_mem_cons_iff]
      exact or_iff_right hn
    · obtain ⟨us, s₁, hus, hvs⟩ := bind_eq_ok.1 hvs
      cases hvs
      have htys : Value.tys us = ts := (ih s).result (outcome_eq_ok.2 hus)
      exact ⟨by rw [Value.tys, hv, htys], v, List.mem_cons_self, hd⟩

theorem narrows_getKey (d : Int) (room : Nat) (k : Basic) :
    Narrows (fun _ => False) (fun s => s.basic = k) (getKey c room k) (getKey (c.withDepth d) room k) := by
  unfold getKey
  split
  · exact fun _ => lowers_error
  · exact Narrows.same_bind fun _ => narrows_same fun _ _ _ => basic_of_getScalar

/-- **A lower limit refuses what nests too deep, and nothing else.** -/
theorem narrows_get (h0 : 0 ≤ c.maxDepth) (d : Int) : ∀ (room : Nat) (t : Ty),
    Narrows (Value.TooDeep c.maxDepth) (fun v => v.ty = t) (get c room t) (get (c.withDepth d) room t)
  | 0, _ => narrows_fail
  | room + 1, t => by
    have ih := narrows_get h0 d room
    refine Narrows.same_bind fun a => Narrows.same_bind fun _ => ?_
    cases t with
    | basic b =>
      have hscalar : Narrows (fun _ => False) (fun s => s.basic = b) (getScalar c.order b)
          (getScalar (c.withDepth d).order b) := narrows_same fun _ _ _ => basic_of_getScalar
      exact hscalar.map fun s hs => ⟨congrArg Ty.basic hs, iff_of_false Value.not_tooDeep_scalar id⟩
    | array t => exact (narrows_getArray d t (ih t)).map fun vs _ => ⟨rfl, Value.tooDeep_array_iff⟩
    | struct ts =>
      exact (narrows_getEach ts fun t _ => ih t).map fun vs hvs => ⟨congrArg Ty.struct hvs, Value.tooDeep_struct_iff⟩
    | entry k t =>
      refine (narrows_getKey d room k).bind (fun s hs _ => (ih t).map fun v hv => ⟨?_, Value.tooDeep_entry_iff⟩)
        fun _ _ _ _ _ hf => hf.elim
      rw [Value.ty, hs, hv]
    | variant =>
      refine Narrows.same_bind fun s => ?_
      cases hp : Signature.parse (c.withDepth d).reading (Text.ofString s) with
      | error e => exact narrows_fail
      | ok t =>
        obtain ⟨hwithin, hbeyond⟩ := Signature.parse_of_parse h0 hp
        by_cases hn : (t.nesting : Int) ≤ c.maxDepth
        · have hlow : Signature.parse c.reading (Text.ofString s) = .ok t := hwithin hn
          rw [hlow]
          refine (ih t).map fun v hv => ⟨rfl, ?_⟩
          rw [Value.tooDeep_variant_iff, hv]
          exact or_iff_right (not_lt.2 hn)
        · obtain ⟨e, he⟩ := hbeyond (not_le.1 hn)
          have hlow : Signature.parse c.reading (Text.ofString s) = .error e := he
          rw [hlow]
          refine narrows_fail_of_deep rfl fun s v s' hv => ?_
          obtain ⟨w, s₁, hw, hv⟩ := bind_eq_ok.1 hv
          cases hv
          have hty : w.ty = t := (ih t s).result (outcome_eq_ok.2 hw)
          exact ⟨rfl, Value.tooDeep_variant_iff.2 (.inl (hty ▸ not_le.1 hn))⟩
    | maybe t => exact narrows_throw

end Marshal.Dbus
