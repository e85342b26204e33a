import Marshal.Proofs.Formation
import Marshal.Proofs.Gvariant.Layout
import Marshal.Proofs.Metering
/-!
# Fixed sizes are exact

The size of a type is computed from offsets that are relative to the start of each struct. The encoder pads from
absolute positions, and the decoder takes all that is left and compares the windows that it finds with what is there.
All three agree at every aligned position: a value of a type of fixed size is written as so many bytes, and is read from
so many (`fixedSize_exact`), so that an element of an array can be located by a multiplication.
-/
namespace Marshal

/-! ## Readers of a number of bytes -/

namespace Get

variable {α β : Type} {get : Get α} {m n : Nat}

/-- Whether a reader that succeeds has taken a number of bytes, whatever caps it was behind. -/
def Consumes (get : Get α) (n : Nat) : Prop :=
  ∀ (s s' : Source) (a : α), get s = .ok a s' →
    s'.position = s.position + n ∧ n ≤ s.rest.length ∧ s'.rest = s.rest.drop n

theorem consumes_pure (a : α) : Consumes (pure a) 0 := by
  intro s s' b hr
  cases hr
  exact ⟨(add_zero _).symm, Nat.zero_le _, rfl⟩

theorem consumes_fail (d : DecodeError) : Consumes (fail d : Get α) n := fun _ _ _ hr => nomatch hr

theorem Consumes.bind {next : α → Get β} (h : Consumes get m) (hn : ∀ a, Consumes (next a) n) :
    Consumes (get >>= next) (m + n) := by
  intro s s' b hr
  obtain ⟨a, s₁, h1, h2⟩ := bind_eq_ok.1 hr
  obtain ⟨hp, hle, hrest⟩ := h s s₁ a h1
  obtain ⟨hp', hle', hrest'⟩ := hn a s₁ s' b h2
  rw [hrest, List.length_drop] at hle'
  refine ⟨by omega, by omega, ?_⟩
  rw [hrest', hrest, List.drop_drop]

theorem Consumes.map {f : α → β} (h : Consumes get n) : Consumes (get >>= fun a => pure (f a)) n :=
  h.bind fun a => consumes_pure (f a)

theorem consumes_readBytes (n : Nat) : Consumes (readBytes n true) n := by
  rintro ⟨p, rest, caps⟩ s' bs hr
  have hcharge : readBytes n true ⟨p, rest, caps⟩ = _ := charge_bind_apply (takeBytes n true) n p rest caps
  rw [hcharge] at hr
  split at hr
  · rw [takeBytes_apply, if_neg (by omega)] at hr
    split at hr
    · cases hr
    · cases hr
      exact ⟨rfl, by simp only; omega, rfl⟩
  · cases hr

theorem consumes_int (f : Integer.Format) : Consumes (int f) f.width := (consumes_readBytes f.width).map

theorem consumes_boolean (w : Nat) (o : ByteOrder) : Consumes (boolean w o) w := by
  refine (consumes_int ⟨w, false, o⟩).bind (n := 0) fun k => ?_
  split
  · exact consumes_pure _
  split
  · exact consumes_pure _
  · exact consumes_fail _

theorem consumes_double (o : ByteOrder) : Consumes (double o) 8 := (consumes_readBytes 8).map

theorem ofExcept_eq_ok {r : Except Error α} {s s' : Source} {a : α} : ofExcept r s = .ok a s' ↔ r = .ok a ∧ s' = s := by
  cases r with
  | error e => exact ⟨nofun, fun h => nomatch h.1⟩
  | ok b =>
    constructor
    · intro hr
      cases hr
      exact ⟨rfl, rfl⟩
    · rintro ⟨hr, rfl⟩
      cases hr
      rfl

end Get

/-! ## Windows of members -/

namespace Framing

/-- Members of fixed sizes end where the sizes say. -/
theorem lastStop_of_fixedSizes : ∀ {ts : List Ty} {ws : List Window} {p stop : Nat}, Tiled p (ts.map Layout.ofTy) ws →
    Ty.fixedSizes p ts = some stop → lastStop p ws = stop
  | [], [], _, _, _, h => Option.some.inj h
  | t :: ts, w :: ws, p, stop, ⟨h1, _, h2, ht⟩, h => by
    rw [Ty.fixedSizes] at h
    split at h
    · rename_i n hn
      rw [lastStop]
      refine lastStop_of_fixedSizes ht ?_
      rw [h2 n hn, h1]
      exact h
    · cases h

/-- The reader of a struct of fixed size accepts no other number of bytes. -/
theorem length_of_windows_fixed {ts : List Ty} {n : Nat} {bs : List UInt8} {ws : List Window}
    (hn : (Ty.struct ts).fixedSize = some n) (h : windows bs.toArray (ts.map Layout.ofTy) = .ok ws) :
    bs.length = n := by
  have hts : ts.map Layout.ofTy ≠ [] := by
    intro hnil
    rw [hnil] at h
    cases h
  rw [Ty.fixedSize, Option.map_eq_some_iff] at hn
  obtain ⟨stop, hstop, rfl⟩ := hn
  obtain ⟨ht, hc⟩ := (windows_eq_ok hts Ty.alignment_pos_of_mem).1 h
  have hfixed := isSome_fixedSizes ts 0
  rw [hstop, Option.isSome_some] at hfixed
  rw [Closes, ← hfixed, if_pos rfl, lastStop_of_fixedSizes ht hstop, tupleAlignment_map_ofTy] at hc
  exact hc

end Framing

namespace Value

mutual
/-- A type of fixed size has no arrays in it, whose elements could be of another type. -/
theorem isTyped_of_fixedSize : ∀ {v : Value} {n : Nat}, v.ty.fixedSize = some n → v.isTyped = true
  | .scalar _, _, _ => rfl
  | .struct members, n, h => by
    rw [ty, Ty.fixedSize, Option.map_eq_some_iff] at h
    obtain ⟨stop, h, -⟩ := h
    exact areTyped_of_fixedSizes h
  | .entry k v, n, h => by
    rw [ty, Ty.fixedSize] at h
    split at h
    · rename_i m l hk hv
      rw [isTyped]
      exact isTyped_of_fixedSize hv
    · cases h
  | .array _ _, _, h | .variant _, _, h | .nothing _, _, h | .just _, _, h => by
    rw [ty, Ty.fixedSize] at h
    cases h

theorem areTyped_of_fixedSizes : ∀ {vs : List Value} {p stop : Nat}, Ty.fixedSizes p (tys vs) = some stop →
    areTyped vs = true
  | [], _, _, _ => rfl
  | v :: vs, p, stop, h => by
    rw [tys, Ty.fixedSizes] at h
    split at h
    · rename_i n hn
      rw [areTyped, isTyped_of_fixedSize hn, areTyped_of_fixedSizes h]
      rfl
    · cases h
end

end Value

namespace Gvariant

open Cell Get Framing

variable {t : Ty} {n : Nat}

/-- A value of fixed size is written as so many bytes at every aligned position. -/
theorem put_fixedSize {c : Codec} {room : Nat} {v : Value} {s s' : Sink} (hn : v.ty.fixedSize = some n)
    (hs : v.ty.gvariantAlignment ∣ s.bytes.size) (hr : put c room v s = .ok () s') :
    ∃ bs : List UInt8, bs.length = n ∧ s'.bytes.toList = s.bytes.toList ++ bs := by
  obtain ⟨cs, hcs, hbytes, -⟩ := (lays_put c room (Value.isTyped_of_fixedSize hn)).ok hr
  obtain ⟨cs, hcells, hcs⟩ := except_map_eq_ok.1 hcs
  obtain ⟨ds, hds, rfl⟩ := except_map_eq_ok.1 hcells
  obtain ⟨-, rfl⟩ := Prod.mk.inj hcs
  rw [padTo_of_dvd (Int.natCast_dvd_natCast.2 hs), blank_zero, List.nil_append] at hbytes
  exact ⟨render ds, by rw [length_render, length_cells c hn hds], hbytes⟩

theorem consumes_getScalar (o : ByteOrder) : ∀ {b : Basic}, b.fixedSize = some n → Consumes (getScalar o b) n
  | .int k, h => Option.some.inj h ▸ (consumes_int ⟨k.width, k.isSigned, o⟩).map
  | .boolean, h => Option.some.inj h ▸ (consumes_boolean booleanWidth o).map
  | .double, h => Option.some.inj h ▸ (consumes_double o).map
  | .text _, h => nomatch h

/-- The members of a struct of fixed size take all that is left, and that is the size. -/
theorem consumes_getMembers {get : Ty → Get Value} {ts : List Ty} (hn : (Ty.struct ts).fixedSize = some n) :
    Consumes (getMembers get ts) n := by
  intro s s' vs hr
  obtain ⟨p, s₁, hp, hr⟩ := bind_eq_ok.1 hr
  cases hp
  obtain ⟨bs, s₁, hbs, hr⟩ := bind_eq_ok.1 hr
  obtain ⟨ws, s₂, hws, hr⟩ := bind_eq_ok.1 hr
  obtain ⟨hws, hs₂⟩ := ofExcept_eq_ok.1 hws
  obtain ⟨-, hs'⟩ := ofExcept_eq_ok.1 hr
  obtain ⟨hrest, hposition, hnil⟩ := readAll_spec hbs
  have hlen := length_of_windows_fixed hn hws
  rw [hs', hs₂, hposition, hnil, ← hlen, hrest]
  exact ⟨rfl, le_rfl, List.drop_length.symm⟩

/-- A value of fixed size is read from so many bytes at every aligned position. -/
theorem get_fixedSize {c : Codec} : ∀ {room : Nat} {t : Ty} {n : Nat} {v : Value} {s s' : Source},
    t.fixedSize = some n → (t.gvariantAlignment : Int) ∣ s.position → get c room t s = .ok v s' →
      s'.position = s.position + n ∧ n ≤ s.rest.length ∧ s'.rest = s.rest.drop n
  | 0, _, _, _, _, _, _, _, hr => nomatch hr
  | room + 1, t, n, v, s, s', hn, hs, hr => by
    have hr := (pad_bind_apply hs).symm.trans hr
    cases t with
    | basic b =>
      rw [Ty.fixedSize] at hn
      exact (consumes_getScalar c.order hn).map _ _ _ hr
    | struct ts => exact (consumes_getMembers hn).map _ _ _ hr
    | entry k t =>
      rw [Ty.fixedSize_entry] at hn
      refine (consumes_getMembers hn).bind (n := 0) (fun vs => ?_) _ _ _ hr
      split <;> exact consumes_pure _
    | array _ | variant | maybe _ =>
      rw [Ty.fixedSize] at hn
      cases hn

/-- **Fixed sizes are exact.** For every type that can be formed and has a fixed size: the size is positive and a
multiple of the alignment, and from every position that is aligned for the type, a value that is written takes so many
bytes, and so does a value that is read, whatever the caps. -/
theorem fixedSize_exact (ht : t.Constructed) (hn : t.fixedSize = some n) :
    1 ≤ n ∧ t.gvariantAlignment ∣ n ∧
      (∀ (c : Codec) (room : Nat) (v : Value) (s s' : Sink), v.ty = t → t.gvariantAlignment ∣ s.bytes.size →
        put c room v s = .ok () s' → ∃ bs : List UInt8, bs.length = n ∧ s'.bytes.toList = s.bytes.toList ++ bs) ∧
      ∀ (c : Codec) (room : Nat) (v : Value) (s s' : Source), (t.gvariantAlignment : Int) ∣ s.position →
        get c room t s = .ok v s' → s'.position = s.position + n ∧ n ≤ s.rest.length ∧ s'.rest = s.rest.drop n := by
  refine ⟨Ty.fixedSize_pos (Ty.isFormed_of_constructed ht) hn, Ty.gvariantAlignment_dvd_fixedSize hn, ?_, ?_⟩
  · rintro c room v s s' rfl hs hr
    exact put_fixedSize hn hs hr
  · intro c room v s s' hs hr
    exact get_fixedSize hn hs hr

/-- Three members of different alignments, the second one a struct itself, behind four bytes: one byte of padding before
it, one at its end, and two before the last member. -/
theorem fixedSize_exact_nested :
    let c : Codec := ⟨.gvariant, .little, 64, 64⟩
    let t : Ty := .struct [.byte, .struct [.basic (.int .int16), .byte], .basic (.int .int32)]
    let v : Value := .struct [.scalar (.int .byte 1), .struct [.scalar (.int .int16 2), .scalar (.int .byte 3)],
      .scalar (.int .int32 4)]
    let before : Array UInt8 := #[9, 9, 9, 9]
    let after : Array UInt8 := #[9, 9, 9, 9, 1, 0, 2, 0, 3, 0, 0, 0, 4, 0, 0, 0]
    t.Constructed ∧ t.fixedSize = some 12 ∧ t.gvariantAlignment ∣ 12 ∧
      put c 3 v ⟨before, []⟩ = .ok () ⟨after, []⟩ ∧
      (∃ bs : List UInt8, bs.length = 12 ∧ after.toList = before.toList ++ bs) ∧
      ∃ s', get c 3 t ⟨4, after.toList.drop 4, []⟩ = .ok v s' ∧ s'.position = 16 := by
  intro c t v before after
  have ht : t.Constructed := Ty.constructed_iff.2 rfl
  have hn : t.fixedSize = some 12 := rfl
  obtain ⟨-, hdvd, hput, hget⟩ := fixedSize_exact ht hn
  have hwrite : put c 3 v ⟨before, []⟩ = .ok () ⟨after, []⟩ := by
    simp only [c, v, before, after]
    rfl
  have hread : get c 3 t ⟨4, after.toList.drop 4, []⟩ = .ok v ⟨16, [], []⟩ := by
    simp only [c, t, v, after]
    rfl
  obtain ⟨hposition, -⟩ := hget c 3 v _ _ (by decide) hread
  exact ⟨ht, hn, hdvd, hwrite, hput c 3 v ⟨before, []⟩ _ rfl (by decide) hwrite, _, hread, hposition⟩

end Gvariant

end Marshal
