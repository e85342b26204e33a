import Marshal.Proofs.Gvariant.Outcome
import Marshal.Proofs.Narrowing
/-!
# The depth limit in GVariant

The same as in D-Bus: raising the limit changes nothing of what is written for a value that was written before, and
lowering it makes a reader refuse the signature of what nests too deep, and nothing else, as long as the room stays the
same. Where children are does not depend on the limit, so each of them is refused or given by itself.
-/
namespace Marshal.Gvariant

open Cell Get Framing

variable {c : Codec}

/-! ## Writing -/

/-- What is written for a value does not depend on the limit, if anything is. -/
theorem cells_withDepth (d : Int) : ∀ {room : Nat} {v : Value} {cs : List Cell}, cells c room v = .ok cs →
    cells (c.withDepth d) room v = .ok cs
  | room + 1, v, cs, h => by
    have hblocks {children : List (Layout × Value)} {blocks : List Block}
        (h : blocksOf (cells c room) children = .ok blocks) :
        blocksOf (cells (c.withDepth d) room) children = .ok blocks :=
      blocksOf_eq_ok.2 ((blocksOf_eq_ok.1 h).imp fun _ _ h => ⟨h.1, cells_withDepth d h.2⟩)
    have hmembers {m : List Value} (h : memberCells (cells c room) m = .ok cs) :
        memberCells (cells (c.withDepth d) room) m = .ok cs := by
      obtain ⟨blocks, hb, ht⟩ := except_bind_eq_ok.1 h
      exact except_bind_eq_ok.2 ⟨blocks, hblocks hb, ht⟩
    cases v with
    | scalar s => exact h
    | array t items =>
      obtain ⟨blocks, hb, ht⟩ := except_bind_eq_ok.1 h
      exact except_bind_eq_ok.2 ⟨blocks, hblocks hb, ht⟩
    | struct members => exact hmembers h
    | entry k w => exact hmembers (m := [.scalar k, w]) h
    | variant w =>
      obtain ⟨body, hb, rfl⟩ := except_map_eq_ok.1 h
      exact except_map_eq_ok.2 ⟨body, cells_withDepth d hb, rfl⟩
    | nothing t => exact h
    | just w =>
      obtain ⟨body, hb, rfl⟩ := except_map_eq_ok.1 h
      exact except_map_eq_ok.2 ⟨body, cells_withDepth d hb, rfl⟩

/-! ## Reading -/

theorem basic_of_getScalar {o : ByteOrder} {b : Basic} {s s' : Source} {x : Scalar}
    (h : getScalar o b s = .ok x s') : x.basic = b := by
  cases b with
  | int k | boolean | double =>
    obtain ⟨_, _, -, h⟩ := bind_eq_ok.1 h
    cases h
    rfl
  | text k =>
    cases k <;>
    · obtain ⟨_, _, -, h⟩ := bind_eq_ok.1 h
      cases h
      rfl

theorem lowers_inside {low high : Get Value} {deep Q : Value → Prop} (h : Narrows deep Q low high) (p : Int)
    (bs : List UInt8) : Lowers deep Q (inside p bs low) (inside p bs high) := h.run _

theorem narrows_getElements {low high : Get Value} {deep Q : Value → Prop} (l : Layout) (h : Narrows deep Q low high) :
    Narrows (fun vs => ∃ v ∈ vs, deep v) (fun _ => True) (getElements l low) (getElements l high) := by
  refine Narrows.same_bind fun base => Narrows.same_bind fun bs => Narrows.same_bind fun f => narrows_ofExcept ?_
  have hall := lowers_mapM (l := List.range f.count) (Q := fun _ => Q) fun i _ =>
    Lowers.same_bind (r := elementWindow bs.toArray f l i) fun w _ => lowers_inside h (base + w.start) (w.of bs.toArray)
  exact ⟨fun _ => trivial, hall.ok, hall.error⟩

theorem narrows_getMembers {low high : Ty → Get Value} {deep : Value → Prop} {ts : List Ty}
    (h : ∀ t ∈ ts, Narrows deep (fun v => v.ty = t) (low t) (high t)) :
    Narrows (fun vs => ∃ v ∈ vs, deep v) (fun vs => Value.tys vs = ts) (getMembers low ts) (getMembers high ts) := by
  refine Narrows.same_bind fun base => Narrows.same_bind fun bs => ?_
  refine (narrows_ofExcept (lowers_same fun ws => length_of_windows)).bind (fun ws hws _ => narrows_ofExcept ?_)
    fun _ _ _ _ _ hf => hf.elim
  have hall := lowers_mapM (l := ws.zip ts) (Q := fun m (v : Value) => v.ty = m.2) fun m hm =>
    lowers_inside (h m.2 (List.of_mem_zip hm).2) (base + m.1.start) (m.1.of bs.toArray)
  refine ⟨fun hvs => Value.tys_of_forall₂ ?_, hall.ok, hall.error⟩
  have htys := hall.result hvs
  rw [← List.map_snd_zip hws.ge]
  exact List.forall₂_map_left_iff.2 htys

/-- The type of what a variant holds is refused when it nests too deep. -/
theorem lowers_signatureType (h0 : 0 ≤ c.maxDepth) (d : Int) (bytes : List UInt8) :
    Lowers (fun t => c.maxDepth < (t.nesting : Int)) (fun _ => True) ((signatureType c bytes).mapError .decode)
      ((signatureType (c.withDepth d) bytes).mapError .decode) := by
  unfold signatureType
  split
  · exact lowers_error
  simp only
  split
  · exact lowers_error
  cases hp : Signature.parse (c.withDepth d).reading (bytes.map UInt8.toNat) with
  | error e => exact lowers_error
  | ok t =>
    obtain ⟨hwithin, hbeyond⟩ := Signature.parse_of_parse h0 hp
    refine ⟨fun _ => trivial, fun {u} hu hn => ?_, fun {u} hu hn => ?_⟩ <;> cases hu
    · have hlow : Signature.parse c.reading (bytes.map UInt8.toNat) = .ok t := hwithin (not_lt.1 hn)
      rw [hlow]
      rfl
    · obtain ⟨e, he⟩ := hbeyond hn
      have hlow : Signature.parse c.reading (bytes.map UInt8.toNat) = .error e := he
      rw [hlow]
      exact ⟨_, rfl, rfl⟩

/-- **A lower limit refuses what nests too deep, and nothing else.** -/
theorem narrows_get (h0 : 0 ≤ c.maxDepth) (d : Int) : ∀ (room : Nat) (t : Ty),
    Narrows (Value.TooDeep c.maxDepth) (fun v => v.ty = t) (get c room t) (get (c.withDepth d) room t)
  | 0, _ => narrows_fail
  | room + 1, t => by
    have ih := narrows_get h0 d room
    refine Narrows.same_bind fun _ => ?_
    cases t with
    | basic b =>
      have hscalar : Narrows (fun _ => False) (fun s => s.basic = b) (getScalar c.order b)
          (getScalar (c.withDepth d).order b) := narrows_same fun _ _ _ => basic_of_getScalar
      exact hscalar.map fun s hs => ⟨congrArg Ty.basic hs, iff_of_false Value.not_tooDeep_scalar id⟩
    | array t =>
      exact (narrows_getElements (Layout.ofTy t) (ih t)).map fun vs _ => ⟨rfl, Value.tooDeep_array_iff⟩
    | struct ts =>
      exact (narrows_getMembers fun t _ => ih t).map fun vs hvs => ⟨congrArg Ty.struct hvs, Value.tooDeep_struct_iff⟩
    | entry k t =>
      refine (narrows_getMembers fun u (_ : u ∈ [.basic k, t]) => ih u).bind (fun vs hvs hn => ?_)
        fun vs s v s' hvs hd hv => ?_
      · obtain ⟨s, w, rfl, rfl, rfl⟩ := eq_of_tys_entry hvs
        exact narrows_pure rfl fun hw => hn ⟨w, List.mem_cons_of_mem _ List.mem_cons_self, hw⟩
      · obtain ⟨k, w, rfl, rfl, rfl⟩ := eq_of_tys_entry hvs
        cases hv
        obtain ⟨u, hu, hd⟩ := hd
        rcases List.mem_pair.1 hu with rfl | rfl
        · exact absurd hd Value.not_tooDeep_scalar
        · exact ⟨rfl, hd⟩
    | variant =>
      refine Narrows.same_bind fun base => Narrows.same_bind fun bs => ?_
      cases hsplit : splitVariant bs with
      | none => exact narrows_fail
      | some parts =>
        obtain ⟨value, signature⟩ := parts
        have hvalue (t : Ty) := narrows_ofExcept (lowers_inside (ih t) base value)
        refine (narrows_ofExcept (lowers_signatureType h0 d signature)).bind (fun t _ hn => ?_) fun t s v s' _ hd hv => ?_
        · refine (hvalue t).map fun w hw => ⟨rfl, ?_⟩
          rw [Value.tooDeep_variant_iff, hw]
          exact or_iff_right hn
        · obtain ⟨w, s₁, hw, hv⟩ := bind_eq_ok.1 hv
          cases hv
          have hty : w.ty = t := (hvalue t s).result (outcome_eq_ok.2 hw)
          exact ⟨rfl, Value.tooDeep_variant_iff.2 (.inl (hty ▸ hd))⟩
    | maybe t =>
      refine Narrows.same_bind fun base => Narrows.same_bind fun bs => ?_
      have hjust (content : List UInt8) := (narrows_ofExcept (lowers_inside (ih t) base content)).map
        (f := Value.just) (Q := fun v => v.ty = .maybe t) fun w hw => ⟨congrArg Ty.maybe hw, Value.tooDeep_just_iff⟩
      split
      · exact narrows_pure rfl Value.not_tooDeep_nothing
      split
      · exact hjust bs
      split
      · exact narrows_fail
      · exact hjust bs.dropLast

end Marshal.Gvariant
