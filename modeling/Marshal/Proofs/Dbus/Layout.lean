import Marshal.Codec
import Marshal.Proofs.Scalars
/-!
# The cells of a D-Bus value

`cells` says what the encoder writes for a value at a position: padding up to the alignment, then the content. It
differs from `put` in that it writes the length of an array where it belongs. That the encoder, which fills it in
afterwards, writes the same is `lays_put`.
-/
namespace Marshal.Dbus

open Cell Put

def scalarBytes (o : ByteOrder) : Scalar → Except Error (List UInt8)
  | .int k n => intBytes ⟨k.width, k.isSigned, o⟩ n
  | .boolean b => booleanBytes booleanWidth o b
  | .double bits => .ok (doubleBytes o bits)
  | .text .signature s =>
    match Signature.parseAll { format := some .dbus } (Text.ofString s) with
    | .ok _ => signatureBytes true (Text.ofString s)
    | .error e => .error (.mismatch (.signatureUnfit s e))
  | .text .string s | .text .objectPath s => charsBytes lengthWidth o s.toList

/-- The length of an array's elements, if it is not over a limit. -/
def lengthOf (c : Codec) (n : Nat) : Except Error (List UInt8) :=
  if c.maxArrayLength < n then .error (.arrayTooLong n c.maxArrayLength)
  else
    match Integer.encode? (lengthFormat c.order) n with
    | some bs => .ok bs
    | none => .error .offsetTooLarge

/-- The cells of an array: the length, the padding up to the first element, and the elements. -/
def arrayCells (c : Codec) (f : Nat → Value → Except Error (List Cell)) (element : Ty) (items : List Value) (p : Nat) :
    Except Error (List Cell) := do
  let a ← alignment element
  let gap := padTo (p + lengthWidth : Nat) a
  let body ← inTurn f (p + lengthWidth + gap) items
  let length ← lengthOf c body.length
  return given length ++ (blank gap ++ body)

/-- The cells of an aligned value, from those of its children. -/
def contentCells (c : Codec) (f : Nat → Value → Except Error (List Cell)) : Value → Nat → Except Error (List Cell)
  | .scalar s, _ => (scalarBytes c.order s).map given
  | .array t items, p => arrayCells c f t items p
  | .struct members, p => inTurn f p members
  | .entry k v, p => follow (f · (.scalar k)) (f · v) p
  | .variant v, p => follow (fun _ => (signatureBytes true v.ty.signature).map given) (f · v) p
  | .nothing _, _ | .just _, _ => .error .maybeUnsupported

/-- The cells of a value at a position, with room for a number of levels. -/
def cells (c : Codec) : (room p : Nat) → Value → Except Error (List Cell)
  | 0, _, _ => .error (.valueTooDeep c.maxDepth)
  | room + 1, p, v => do
    let a ← alignment v.ty
    follow (fun p => .ok (blank (padTo p a))) (contentCells c (cells c room) v) p

variable {c : Codec} {f : Nat → Value → Except Error (List Cell)} {p : Nat} {cs : List Cell}

theorem lengthOf_eq_ok {n : Nat} {bs : List UInt8} :
    lengthOf c n = .ok bs ↔ (n : Int) ≤ c.maxArrayLength ∧ Integer.encode? (lengthFormat c.order) n = some bs := by
  unfold lengthOf
  split
  · rename_i h
    simp only [reduceCtorEq, false_iff, not_and]
    omega
  · cases Integer.encode? (lengthFormat c.order) n with
    | none => simp
    | some b => simp; omega

theorem arrayCells_eq_ok {t : Ty} {items : List Value} :
    arrayCells c f t items p = .ok cs ↔
      ∃ a body length, alignment t = .ok a ∧
        inTurn f (p + lengthWidth + padTo (p + lengthWidth : Nat) a) items = .ok body ∧
        lengthOf c body.length = .ok length ∧
          cs = given length ++ (blank (padTo (p + lengthWidth : Nat) a) ++ body) := by
  simp only [arrayCells, except_bind_eq_ok, pure, Except.pure, Except.ok.injEq]
  constructor
  · rintro ⟨a, h1, body, h2, length, h3, rfl⟩
    exact ⟨a, body, length, h1, h2, h3, rfl⟩
  · rintro ⟨a, body, length, h1, h2, h3, rfl⟩
    exact ⟨a, h1, body, h2, length, h3, rfl⟩

theorem cells_eq_ok {room : Nat} {v : Value} :
    cells c (room + 1) p v = .ok cs ↔
      ∃ a body, alignment v.ty = .ok a ∧ contentCells c (cells c room) v (p + padTo p a) = .ok body ∧
        cs = blank (padTo p a) ++ body := by
  simp only [cells, except_bind_eq_ok, follow_eq_ok, Except.ok.injEq]
  constructor
  · rintro ⟨a, h1, -, body, rfl, h2, rfl⟩
    rw [length_blank] at h2
    exact ⟨a, body, h1, h2, rfl⟩
  · rintro ⟨a, body, h1, h2, rfl⟩
    exact ⟨a, h1, _, body, rfl, by rwa [length_blank], rfl⟩

theorem emits_putScalar (o : ByteOrder) (s : Scalar) : Emits (putScalar o s) (scalarBytes o s) := by
  cases s with
  | int k n => exact emits_int _ n
  | boolean b => exact emits_boolean _ o b
  | double bits => exact emits_double o bits
  | text k s =>
    cases k with
    | string | objectPath => exact emits_chars lengthWidth o s.toList
    | signature =>
      unfold putScalar scalarBytes
      dsimp only
      cases Signature.parseAll { format := some .dbus } (Text.ofString s) with
      | ok ts => exact emits_signature true _
      | error e => exact emits_throw _

theorem alignment_dvd_eight {t : Ty} {a : Nat} (h : alignment t = .ok a) : a ∣ 8 := by
  unfold alignment at h
  split at h
  · rename_i b hb
    cases h
    exact Ty.dbusAlignment?_dvd_eight hb
  · cases h

/-! ## Filling in a length -/

theorem toList_setFrom {as old bs rest : List UInt8} : ∀ {bytes : Array UInt8}, old.length = bs.length →
    bytes.toList = as ++ (old ++ rest) → (setFrom bytes as.length bs).toList = as ++ (bs ++ rest) := by
  induction bs generalizing as old with
  | nil =>
    intro bytes hlen h
    rw [List.eq_nil_of_length_eq_zero hlen] at h
    exact h
  | cons b bs ih =>
    intro bytes hlen h
    obtain ⟨x, old, rfl⟩ := List.exists_cons_of_length_eq_add_one hlen
    have h1 : (bytes.setIfInBounds as.length b).toList = (as ++ [b]) ++ (old ++ rest) := by
      rw [Array.toList_setIfInBounds, h]
      simp
    have h2 := ih (Nat.succ.inj hlen) h1
    rw [List.length_append, List.length_singleton] at h2
    rw [setFrom, h2]
    simp

theorem overwrite_eq_ok (caps : List Cap) {bytes : Array UInt8} {as old bs rest : List UInt8}
    (hlen : old.length = bs.length) (h : bytes.toList = as ++ (old ++ rest)) :
    ∃ bytes', overwrite as.length bs ⟨bytes, caps⟩ = .ok () ⟨bytes', caps⟩ ∧ bytes'.toList = as ++ (bs ++ rest) := by
  have hsize : bytes.size = as.length + (bs.length + rest.length) := by
    rw [← Array.length_toList, h, List.length_append, List.length_append, hlen]
  refine ⟨setFrom bytes as.length bs, ?_, toList_setFrom hlen h⟩
  rw [overwrite, if_neg (by omega), Int.toNat_natCast]

/-- An array's writer up to the end of the elements, before it fills in their length. -/
def putElements (c : Codec) (put : Value → Put Unit) (a : Nat) (items : List Value) : Put (Nat × Nat × Nat) := do
  let lengthPosition ← Put.position
  Put.int (lengthFormat c.order) 0
  Put.pad a
  let start ← Put.position
  Put.forEach put items
  let stop ← Put.position
  return (lengthPosition, start, stop)

def fillLength (c : Codec) : Nat × Nat × Nat → Put Unit := fun (lengthPosition, start, stop) =>
  match lengthOf c (stop - start) with
  | .ok bs => Put.overwrite lengthPosition bs
  | .error e => throw e

theorem putArray_eq (c : Codec) (put : Value → Put Unit) (t : Ty) (items : List Value) :
    putArray c put t items = putAlignment t >>= fun a => putElements c put a items >>= fillLength c := by
  unfold putArray putElements
  simp only [bind_assoc, pure_bind, fillLength, lengthOf]
  refine bind_congr fun a => bind_congr fun p => bind_congr fun _ => bind_congr fun _ => bind_congr fun start => ?_
  refine bind_congr fun _ => bind_congr fun stop => ?_
  split
  · rfl
  · cases Integer.encode? (lengthFormat c.order) (stop - start : Nat) <;> rfl

theorem intBytes_zero (o : ByteOrder) : intBytes (lengthFormat o) 0 = .ok [0, 0, 0, 0] := by
  cases o <;> rfl

variable {put : Value → Put Unit} {items : List Value} {a : Nat}

/-- The elements of an array at a position, behind a length of zero and padding. -/
theorem lays_putElements (ha : a ∣ 8) (hf : ∀ v ∈ items, Lays (put v) fun p => cellsOnly (f p v)) :
    Lays (putElements c put a items) fun p => do
      let gap := padTo (p + lengthWidth : Nat) a
      let body ← inTurn f (p + lengthWidth + gap) items
      return ((p, p + lengthWidth + gap, p + lengthWidth + gap + body.length),
        given [0, 0, 0, 0] ++ (blank gap ++ body)) := by
  have hint := emits_int (lengthFormat c.order) 0
  rw [intBytes_zero] at hint
  refine (lays_position.bind fun p => hint.bind fun _ => (lays_pad ha).bind fun _ => lays_position.bind fun start =>
    (lays_forEach items hf).bind fun _ => lays_position.bind fun stop => lays_pure (p, start, stop)).congr fun p => ?_
  simp only [cellsOnly, Except.map, bind, Except.bind, pure, Except.pure, length_given, length_blank, List.length_nil,
    List.length_cons, Nat.add_zero, show 0 + 1 + 1 + 1 + 1 = lengthWidth from rfl]
  cases inTurn f (p + lengthWidth + padTo (p + lengthWidth : Nat) a) items with
  | error e => rfl
  | ok body => simp only [List.append_nil, List.nil_append]

/-- What is written once the alignment of a type is known. -/
theorem lays_putAlignment {t : Ty} {next : Nat → Put Unit} {g : Nat → Nat → Except Error (List Cell)}
    (h : ∀ a, alignment t = .ok a → Lays (next a) fun p => cellsOnly (g a p)) :
    Lays (do next (← putAlignment t)) fun p => cellsOnly (do g (← alignment t) p) := by
  unfold putAlignment
  cases ha : alignment t with
  | error e => exact lays_throw e
  | ok a => exact h a ha

/-- Where an array's elements stand once they are written. -/
theorem exists_of_putElements (ha : a ∣ 8) (hf : ∀ v ∈ items, Lays (put v) fun p => cellsOnly (f p v)) {s : Sink}
    {bytes : Array UInt8} {caps : List Cap} {l start stop gap : Nat}
    (hg : gap = padTo (s.bytes.size + lengthWidth : Nat) a)
    (h : putElements c put a items s = .ok (l, start, stop) ⟨bytes, caps⟩) :
    ∃ body, inTurn f (s.bytes.size + lengthWidth + gap) items = .ok body ∧ l = s.bytes.size ∧
      stop - start = body.length ∧ bytes.toList = s.bytes.toList ++ ([0, 0, 0, 0] ++ render (blank gap ++ body)) ∧
      caps = Cap.lower (lengthWidth + (gap + body.length)) s.caps := by
  subst hg
  obtain ⟨cs, h1, h2, h3⟩ := (lays_putElements ha hf).ok h
  obtain ⟨body, h4, h5⟩ := except_bind_eq_ok.1 h1
  simp only [pure, Except.pure, Except.ok.injEq, Prod.mk.injEq] at h5
  obtain ⟨⟨rfl, rfl, rfl⟩, rfl⟩ := h5
  refine ⟨body, h4, rfl, Nat.add_sub_cancel_left .., ?_, ?_⟩
  · rw [render_append, render_given] at h2
    exact h2
  · rw [List.length_append, List.length_append, length_blank] at h3
    exact h3

theorem fillLength_of_error {n l start stop : Nat} {e : Error} (hn : stop - start = n) (hl : lengthOf c n = .error e)
    (s : Sink) : fillLength c (l, start, stop) s = .error e s := by
  rw [fillLength, hn, hl]
  rfl

/-- The length takes the place of the zeros. -/
theorem fillLength_of_ok {n start stop : Nat} {length as rest : List UInt8} {bytes : Array UInt8} (caps : List Cap)
    (hn : stop - start = n) (hl : lengthOf c n = .ok length) (h : bytes.toList = as ++ ([0, 0, 0, 0] ++ rest)) :
    ∃ bytes', fillLength c (as.length, start, stop) ⟨bytes, caps⟩ = .ok () ⟨bytes', caps⟩ ∧
      bytes'.toList = as ++ (length ++ rest) := by
  have hwidth : length.length = lengthWidth := Integer.length_of_encode? (lengthOf_eq_ok.1 hl).2
  have hzeros : ([0, 0, 0, 0] : List UInt8).length = length.length := hwidth.symm
  rw [fillLength, hn, hl]
  exact overwrite_eq_ok caps hzeros h

/-- **The length that is filled in stands where the layout has it.** -/
theorem lays_putArray {t : Ty} (hf : ∀ v ∈ items, Lays (put v) fun p => cellsOnly (f p v)) :
    Lays (putArray c put t items) fun p => cellsOnly (arrayCells c f t items p) := by
  rw [putArray_eq]
  refine lays_putAlignment fun a ha => ?_
  have ha8 := alignment_dvd_eight ha
  constructor
  · intro s s' _ h
    obtain ⟨⟨l, start, stop⟩, ⟨bytes, caps⟩, h1, h2⟩ := bind_eq_ok.1 h
    obtain ⟨body, hbody, rfl, hlen, hbytes, hcaps⟩ := exists_of_putElements ha8 hf rfl h1
    cases hl : lengthOf c body.length with
    | error e =>
      rw [fillLength_of_error hlen hl] at h2
      cases h2
    | ok length =>
      obtain ⟨bytes', h3, h4⟩ := fillLength_of_ok caps hlen hl hbytes
      rw [Array.length_toList] at h3
      cases h3.symm.trans h2
      refine ⟨given length ++ (blank (padTo (s.bytes.size + lengthWidth : Nat) a) ++ body), ?_, ?_, ?_⟩
      · simp only [cellsOnly, hbody, bind, Except.bind, hl, pure, Except.pure, Except.map]
      · rw [h4, render_append (given length), render_given]
      · rw [hcaps, List.length_append, List.length_append, length_given, length_blank,
          Integer.length_of_encode? (lengthOf_eq_ok.1 hl).2]
        rfl
  · intro s s' e h hc
    rcases bind_eq_error.1 h with h1 | ⟨⟨l, start, stop⟩, ⟨bytes, caps⟩, h1, h2⟩
    · have h3 := (lays_putElements ha8 hf).error h1 hc
      simp only at h3 ⊢
      cases hbody : inTurn f (s.bytes.size + lengthWidth + padTo (s.bytes.size + lengthWidth : Nat) a) items with
      | ok body => simp only [hbody, bind, Except.bind, pure, Except.pure, reduceCtorEq] at h3
      | error e' =>
        simp only [hbody, bind, Except.bind, Except.error.injEq] at h3
        rw [← h3]
        rfl
    · obtain ⟨body, hbody, rfl, hlen, hbytes, -⟩ := exists_of_putElements ha8 hf rfl h1
      simp only [hbody, bind, Except.bind]
      cases hl : lengthOf c body.length with
      | error e' =>
        rw [fillLength_of_error hlen hl] at h2
        cases h2
        rfl
      | ok length =>
        obtain ⟨bytes', h3, -⟩ := fillLength_of_ok caps hlen hl hbytes
        rw [Array.length_toList] at h3
        cases h3.symm.trans h2

/-- **What the encoder writes for a value is its layout**, and it fails with the error that the layout has. -/
theorem lays_put (c : Codec) :
    ∀ (room : Nat) (v : Value), Lays (Dbus.put c room v) fun p => cellsOnly (cells c room p v)
  | 0, v => lays_throw _
  | room + 1, v => by
    have ih := lays_put c room
    refine lays_putAlignment (g := fun a => follow (fun p => .ok (blank (padTo p a))) (contentCells c (cells c room) v))
      fun a ha => (lays_pad (alignment_dvd_eight ha)).andThen ?_
    cases v with
    | scalar s => exact emits_putScalar c.order s
    | array t items => exact lays_putArray fun v _ => ih v
    | struct members => exact lays_forEach members fun v _ => ih v
    | entry k v => exact (ih (.scalar k)).andThen (ih v)
    | variant v => exact Lays.andThen (emits_signature true v.ty.signature) (ih v)
    | nothing t => exact lays_throw _
    | just v => exact lays_throw _

theorem encode_eq (hc : c.format = .dbus) (v : Value) :
    c.encode none v = (cells c c.room 0 v).map fun cs => (render cs).toArray := by
  rw [Codec.encode, Codec.put, hc]
  exact run_eq (lays_put c c.room v)

theorem decode_eq (hc : c.format = .dbus) (bs : List UInt8) (t : Ty) :
    c.decode none bs t = Get.run (get c c.room t) ⟨0, bs, []⟩ := by
  have hget : c.get t = Dbus.get c c.room t := by rw [Codec.get, hc]
  rw [← hget]
  rfl

end Marshal.Dbus
