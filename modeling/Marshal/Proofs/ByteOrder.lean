import Marshal.Proofs.Integer
import Marshal.Proofs.Runs
/-!
# What the byte order can change

Two encoders that differ in their byte order run side by side. They ask for the position, pad, reject and measure in the
same way as long as scalars take as many bytes in both orders, so the whole encoders agree as far as their scalars do:
scalars of any type keep sinks `Sink.Alike`, and scalars that GVariant writes byte by byte keep them equal.
-/
namespace Marshal

/-- A number fits into the formats of both orders or of none, and takes as many bytes in them. -/
theorem Integer.encode?_order (width : Nat) (signed : Bool) (o o' : ByteOrder) (n : Int) :
    (encode? ⟨width, signed, o⟩ n = none ∧ encode? ⟨width, signed, o'⟩ n = none) ∨
      ∃ bs bs', encode? ⟨width, signed, o⟩ n = some bs ∧ encode? ⟨width, signed, o'⟩ n = some bs' ∧
        bs.length = bs'.length := by
  by_cases hfits : Fits width signed n
  · exact .inr ⟨_, _, if_pos hfits, if_pos hfits, by simp⟩
  · exact .inl ⟨if_neg hfits, if_neg hfits⟩

/-- Whether as many bytes were written, behind the same caps. -/
def Sink.Alike (s t : Sink) : Prop := s.bytes.size = t.bytes.size ∧ s.caps = t.caps

namespace Put

variable {α : Type} {R : Sink → Sink → Prop}

theorem agrees_position : Agrees Sink.Alike position position where
  ok s t _ _ h hr := by
    cases hr
    exact ⟨t, by rw [position, h.1], h⟩
  error _ hr := nomatch hr

theorem agrees_writeBytes {bs bs' : List UInt8} (h : bs.length = bs'.length) :
    Agrees Sink.Alike (writeBytes bs) (writeBytes bs') := by
  refine agrees_of_forall ?_
  rintro ⟨bytes, caps⟩ ⟨bytes', _⟩ ⟨hsize, rfl⟩
  simp only [writeBytes_apply]
  rw [← h]
  split
  · refine .inl ⟨_, _, _, rfl, rfl, ?_, rfl⟩
    rw [size_append, size_append, h, ← hsize]
  · exact .inr ⟨_, _, _, rfl, rfl⟩

theorem agrees_overwrite (position : Int) {bs bs' : List UInt8} (h : bs.length = bs'.length) :
    Agrees Sink.Alike (overwrite position bs) (overwrite position bs') := by
  refine agrees_of_forall ?_
  rintro ⟨bytes, caps⟩ ⟨bytes', _⟩ ⟨hsize, rfl⟩
  rw [overwrite, overwrite, ← h, ← hsize]
  split
  · exact .inr ⟨_, _, _, rfl, rfl⟩
  · refine .inl ⟨_, _, _, rfl, rfl, ?_, rfl⟩
    rw [size_setFrom, size_setFrom, ← hsize]

/-- **What a writer does depends on how much stands before it only**, not on which bytes. -/
theorem Composed.agrees {put : Put α} (h : Composed 0 put) : Agrees Sink.Alike put put := by
  induction h with
  | pure a => exact agrees_pure a
  | throw he => exact agrees_throw _
  | position h ih => exact agrees_position.bind fun p => ih p (Nat.zero_le p)
  | writeBytes bs => exact agrees_writeBytes rfl
  | overwrite hp bs => exact agrees_overwrite _ rfl
  | bind h h' ih ih' => exact ih.bind ih'

theorem congruence_alike : Congruence fun _ x y => Agrees Sink.Alike x y := ⟨Composed.agrees, Agrees.bind⟩

theorem congruence_eq : Congruence fun _ x y => Agrees Eq x y := ⟨fun _ => agrees_refl _, Agrees.bind⟩

/-- What two agreeing writers leave behind, as far as related sinks have it in common. -/
theorem map_run_of_agrees {put put' : Put Unit} (h : Agrees R put put') (hrefl : ∀ s, R s s) {f : Array UInt8 → α}
    (hf : ∀ {s t}, R s t → f s.bytes = f t.bytes) (cap : Option Int) : (run put' cap).map f = (run put cap).map f := by
  cases hr : run put cap with
  | ok b =>
    obtain ⟨s, hs, rfl⟩ := run_eq_ok_iff.1 hr
    obtain ⟨t, ht, hst⟩ := h.ok (hrefl _) hs
    rw [run_eq_ok_iff.2 ⟨t, ht, rfl⟩]
    exact congrArg Except.ok (hf hst).symm
  | error e =>
    obtain ⟨s, hs⟩ := run_eq_error_iff.1 hr
    obtain ⟨t, ht⟩ := h.error (hrefl _) hs
    rw [run_eq_error_iff.2 ⟨t, ht⟩]

/-! ## Scalars -/

theorem agrees_int (width : Nat) (signed : Bool) (o o' : ByteOrder) (n : Int) :
    Agrees Sink.Alike (int ⟨width, signed, o⟩ n) (int ⟨width, signed, o'⟩ n) := by
  unfold int
  rcases Integer.encode?_order width signed o o' n with ⟨h, h'⟩ | ⟨bs, bs', h, h', hlen⟩
  · rw [h, h']
    exact agrees_throw _
  · rw [h, h']
    exact agrees_writeBytes hlen

theorem agrees_chars (width : Nat) (o o' : ByteOrder) (cs : List Char) :
    Agrees Sink.Alike (chars width o cs) (chars width o' cs) := by
  have hend : Composed 0 (do writeBytes (Utf8.encode cs); writeByte 0) :=
    (Composed.writeBytes _).bind fun _ => composed_writeByte (k := 0) (by decide)
  unfold chars
  simp only
  split
  · exact hend.agrees
  · exact (agrees_int ..).bind fun _ => hend.agrees

/-- A number of a single byte. -/
theorem int_one (signed : Bool) (o o' : ByteOrder) (n : Int) : int ⟨1, signed, o⟩ n = int ⟨1, signed, o'⟩ n := by
  have harrange (o : ByteOrder) (m : Nat) : o.arrange (Integer.digits 1 m) = Integer.digits 1 m := by cases o <;> rfl
  simp only [int, Integer.encode?, harrange]

end Put

/-! ## D-Bus -/

namespace Dbus

open Put

theorem agrees_putScalar (o o' : ByteOrder) : ∀ s : Scalar, Agrees Sink.Alike (putScalar o s) (putScalar o' s)
  | .int .. => agrees_int ..
  | .boolean _ => agrees_int ..
  | .double _ => agrees_writeBytes (by simp)
  | .text .string s | .text .objectPath s => agrees_chars lengthWidth o o' s.toList
  | .text .signature s => (composed_putScalar o (.text .signature s)).agrees

theorem agrees_putArray (c c' : Codec) (hmax : c.maxArrayLength = c'.maxArrayLength) {put put' : Value → Put Unit}
    (element : Ty) {items : List Value} (h : ∀ v ∈ items, Agrees Sink.Alike (put v) (put' v)) :
    Agrees Sink.Alike (putArray c put element items) (putArray c' put' element items) := by
  refine (composed_putAlignment element).agrees.bind fun a => agrees_position.bind fun l => ?_
  refine (agrees_int ..).bind fun _ => (composed_pad a).agrees.bind fun _ => agrees_position.bind fun start => ?_
  refine (congruence_alike.forEach items h).bind fun _ => agrees_position.bind fun stop => ?_
  simp only [hmax]
  split
  · exact agrees_throw _
  have hlength := Integer.encode?_order lengthWidth false c.order c'.order (stop - start : Nat)
  rcases hlength with ⟨h, h'⟩ | ⟨bs, bs', h, h', hlen⟩
  · rw [lengthFormat, lengthFormat, h, h']
    exact agrees_throw _
  · rw [lengthFormat, lengthFormat, h, h']
    exact agrees_overwrite l hlen

theorem agrees_put (c : Codec) (o : ByteOrder) : ∀ (room : Nat) (v : Value),
    Agrees Sink.Alike (put c room v) (put { c with order := o } room v)
  | 0, _ => agrees_throw _
  | room + 1, _ => congr_put congruence_alike (fun s _ => agrees_putScalar c.order o s)
      (fun t _ _ => agrees_putArray c { c with order := o } rfl t fun w _ => agrees_put c o room w)
      fun w _ => agrees_put c o room w

end Dbus

/-! ## GVariant -/

namespace Value

mutual
/-- The basic values in a value, at every level. -/
def scalars : Value → List Scalar
  | .scalar s => [s]
  | .array _ vs | .struct vs => scalarsAmong vs
  | .entry k v => k :: scalars v
  | .variant v | .just v => scalars v
  | .nothing _ => []

def scalarsAmong : List Value → List Scalar
  | [] => []
  | v :: vs => scalars v ++ scalarsAmong vs
end

theorem scalars_subset_scalarsAmong {w : Value} {vs : List Value} (h : w ∈ vs) : w.scalars ⊆ scalarsAmong vs :=
  subset_of_mem_gathered (fun _ _ => by rw [scalarsAmong]) h

/-- The basic values in a child are among those of its container. -/
theorem scalars_subset_of_mem_children {v w : Value} (hw : w ∈ v.children) : w.scalars ⊆ v.scalars := by
  cases v with
  | array t vs | struct vs =>
    rw [scalars]
    exact scalars_subset_scalarsAmong hw
  | entry k v =>
    rcases List.mem_pair.1 hw with rfl | rfl
    · exact List.cons_subset_cons k (List.nil_subset _)
    · exact List.subset_cons_self k _
  | variant v | just v =>
    rw [List.mem_singleton.1 hw, scalars]
    exact List.Subset.refl _
  | scalar s | nothing t => cases hw

end Value

/-- Whether GVariant writes the values of a type byte by byte, as one byte or as text. -/
def Basic.isOrderFree : Basic → Bool
  | .int .byte | .boolean | .text _ => true
  | .int _ | .double => false

namespace Gvariant

open Put Framing

theorem agrees_putScalar (o o' : ByteOrder) : ∀ s : Scalar, Agrees Sink.Alike (putScalar o s) (putScalar o' s)
  | .int .. => agrees_int ..
  | .boolean _ => agrees_int ..
  | .double _ => agrees_writeBytes (by simp)
  | .text .string s | .text .objectPath s => agrees_chars 0 o o' s.toList
  | .text .signature _ => (composed_signature false _).agrees

theorem putScalar_of_isOrderFree (o o' : ByteOrder) : ∀ {s : Scalar}, s.basic.isOrderFree = true →
    putScalar o s = putScalar o' s
  | .int .byte n, _ => int_one false o o' n
  | .boolean _, _ => int_one false o o' _
  | .text .string _, _ | .text .objectPath _, _ | .text .signature _, _ => rfl

/-- **Encoders in two byte orders agree as far as their scalars do.** -/
theorem agrees_put {R : Sink → Sink → Prop} (hR : Congruence fun _ x y => Agrees R x y) (c : Codec) (o : ByteOrder) :
    ∀ (room : Nat) (v : Value), (∀ s ∈ v.scalars, Agrees R (putScalar c.order s) (putScalar o s)) →
      Agrees R (put c room v) (put { c with order := o } room v)
  | 0, _, _ => agrees_throw _
  | room + 1, _, hs => congr_put hR (fun s h => hs s (h ▸ List.mem_singleton_self s)) fun w hw =>
      agrees_put hR c o room w fun s h => hs s (Value.scalars_subset_of_mem_children hw h)

end Gvariant

/-! ## Whole values -/

namespace Codec

theorem agrees_put (c : Codec) (o : ByteOrder) (v : Value) :
    Agrees Sink.Alike (c.put v) (put { c with order := o } v) := by
  rcases c with ⟨_ | _, order, maxDepth, maxArrayLength⟩
  · exact Dbus.agrees_put ⟨.dbus, order, maxDepth, maxArrayLength⟩ o _ v
  · exact Gvariant.agrees_put Put.congruence_alike ⟨.gvariant, order, maxDepth, maxArrayLength⟩ o _ v fun s _ =>
      Gvariant.agrees_putScalar order o s

/-- **The byte order never changes the layout.** In both orders a value takes as many bytes, or is refused with the same
error. When all basic values in it are bytes, booleans or text, then in GVariant, whose framing offsets do not follow
the byte order, the bytes are the same as well. -/
theorem encode_order (c : Codec) (o : ByteOrder) (cap : Option Int) (v : Value) :
    (encode { c with order := o } cap v).map Array.size = (c.encode cap v).map Array.size ∧
      (c.format = .gvariant → (∀ s ∈ v.scalars, s.basic.isOrderFree = true) →
        encode { c with order := o } cap v = c.encode cap v) := by
  refine ⟨Put.map_run_of_agrees (c.agrees_put o v) (fun _ => ⟨rfl, rfl⟩) And.left cap, fun hc hfree => ?_⟩
  have hagrees : Agrees Eq (c.put v) (put { c with order := o } v) := by
    rcases c with ⟨_ | _, order, maxDepth, maxArrayLength⟩
    · cases hc
    refine Gvariant.agrees_put Put.congruence_eq ⟨.gvariant, order, maxDepth, maxArrayLength⟩ o _ v fun s hs => ?_
    rw [Gvariant.putScalar_of_isOrderFree order o (hfree s hs)]
    exact agrees_refl _
  have h := Put.map_run_of_agrees hagrees (fun _ => rfl) (f := id) (congrArg Sink.bytes) cap
  rwa [Except.map_id] at h

/-- Two strings in a variant, with a framing offset, and a number, which alone follows the byte order. -/
theorem encode_order_strings :
    let strings : Value := .variant (.struct [.scalar (.text .string "a"), .scalar (.text .string "bc")])
    let number : Value := .scalar (.int .uint16 258)
    let c : Codec := ⟨.gvariant, .little, 64, 0⟩
    c.format = .gvariant ∧ (∀ s ∈ strings.scalars, s.basic.isOrderFree = true) ∧
      encode { c with order := .big } none strings = c.encode none strings ∧
      c.encode none strings = .ok #[97, 0, 98, 99, 0, 2, 0, 40, 115, 115, 41] ∧
      (encode { c with order := .big } none number).map Array.size = (c.encode none number).map Array.size ∧
      encode { c with order := .big } none number = .ok #[1, 2] ∧ c.encode none number = .ok #[2, 1] := by
  intro strings number c
  have hfree : ∀ s ∈ strings.scalars, s.basic.isOrderFree = true := by decide
  have hbig : encode { c with order := .big } none number = .ok #[1, 2] := by
    simp only [c, number]
    rfl
  have hlittle : c.encode none number = .ok #[2, 1] := by
    simp only [c, number]
    rfl
  exact ⟨rfl, hfree, (encode_order c .big none strings).2 rfl hfree, by rfl, (encode_order c .big none number).1, hbig,
    hlittle⟩

end Codec

end Marshal
