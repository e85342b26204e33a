import Marshal.Proofs.Gvariant.Layout
/-!
# A GVariant value is the same wherever it stands

Padding is counted from the start of the outermost value, while the offsets of a container are counted from its own
start. They agree because every container starts at a multiple of its alignment, which the alignment of each child
divides, and that of a variant is the greatest there is. So a value is written in the same way wherever it stands, but
for the padding in front of it, and a window is read in the same way wherever it is aligned.

Reading is compared as two runs: `Get.Moves n` says of two readers that they do the same when one of them stands `n`
bytes further. A reader that asks for its position sees two different ones, so the two need not be the same reader.
-/
namespace Marshal

/-! ## Readers that are moved -/

/-- The same input, further along. -/
def Source.shift (n : Int) (s : Source) : Source := { s with position := n + s.position }

@[simp] theorem Source.shift_rest (n : Int) (s : Source) : (s.shift n).rest = s.rest := rfl

namespace Get

variable {α β : Type} {n : Int} {get get' : Get α} {next next' : α → Get β}

/-- The same result, with the source that it leaves further along. -/
def shifted (n : Int) : EStateM.Result Error Source α → EStateM.Result Error Source α
  | .ok a s => .ok a (s.shift n)
  | .error e s => .error e (s.shift n)

/-- Whether one reader does from `n` bytes further on what another one does. -/
def Moves (n : Int) (get get' : Get α) : Prop := ∀ s, get' (s.shift n) = shifted n (get s)

theorem moves_pure (a : α) : Moves n (pure a) (pure a) := fun _ => rfl

theorem moves_throw (e : Error) : Moves n (throw e : Get α) (throw e) := fun _ => rfl

theorem moves_fail (e : DecodeError) : Moves n (fail e : Get α) (fail e) := moves_throw _

theorem moves_ofExcept (r : Except Error α) : Moves n (ofExcept r) (ofExcept r) := by
  cases r with
  | error e => exact moves_throw e
  | ok a => exact moves_pure a

theorem moves_isEmpty : Moves n isEmpty isEmpty := fun _ => rfl

theorem Moves.bind (h : Moves n get get') (hn : ∀ a, Moves n (next a) (next' a)) :
    Moves n (get >>= next) (get' >>= next') := by
  intro s
  change EStateM.bind get' next' (s.shift n) = shifted n (EStateM.bind get next s)
  unfold EStateM.bind
  rw [h s]
  cases get s with
  | error e s₁ => rfl
  | ok a s₁ => exact hn a s₁

theorem Moves.map {f : α → β} (h : Moves n get get') :
    Moves n (get >>= fun a => pure (f a)) (get' >>= fun a => pure (f a)) := h.bind fun a => moves_pure (f a)

/-- A reader that asks where it stands goes on from there. -/
theorem moves_position {next next' : Int → Get β} (h : ∀ p, Moves n (next p) (next' (n + p))) :
    Moves n (position >>= next) (position >>= next') := fun s => h s.position s

theorem moves_charge (k : Int) : Moves n (charge k) (charge k) := by
  rintro ⟨p, rest, caps⟩
  simp only [Source.shift, charge]
  rcases Cap.chargeAll k caps with ⟨_ | limit, caps⟩ <;> rfl

theorem moves_takeBytes (k : Int) (exact : Bool) : Moves n (takeBytes k exact) (takeBytes k exact) := by
  have hpeek : Moves n (peekBytes k exact) (peekBytes k exact) := by
    intro s
    rw [peekBytes, peekBytes, Source.shift_rest]
    by_cases hneg : k < 0
    · rw [if_pos hneg, if_pos hneg]
      rfl
    rw [if_neg hneg, if_neg hneg]
    by_cases hshort : (exact && decide ((s.rest.take k.toNat).length < k.toNat)) = true
    · simp only [if_pos hshort]
      rfl
    · simp only [if_neg hshort]
      rfl
  have hadvance (m : Nat) : Moves n (advance m) (advance m) := by
    rintro ⟨p, rest, caps⟩
    simp only [Source.shift, advance, shifted, add_assoc]
  exact hpeek.bind fun bs => (hadvance bs.length).bind fun _ => moves_pure bs

theorem moves_readBytes (k : Int) (exact : Bool) : Moves n (readBytes k exact) (readBytes k exact) :=
  (moves_charge k).bind fun _ => moves_takeBytes k exact

theorem moves_readByte : Moves n readByte readByte := by
  refine (moves_charge 1).bind fun _ => ?_
  rintro ⟨p, _ | ⟨b, rest⟩, caps⟩
  · rfl
  · change EStateM.Result.ok _ _ = EStateM.Result.ok _ _
    simp only [Source.shift, add_assoc]

theorem Moves.behindCap (h : Moves n get get') (c : Cap) (left : α → Int) :
    Moves n (behindCap c get left) (behindCap c get' left) := by
  intro s
  simp only [Get.behindCap, h s]
  cases get s <;> rfl

theorem moves_readAll : Moves n readAll readAll := by
  rintro ⟨p, rest, _ | ⟨c, cs⟩⟩
  · simp only [Source.shift, readAll, shifted, add_assoc]
  · refine Moves.behindCap ?_ c _ ⟨p, rest, cs⟩
    refine (moves_readBytes _ _).bind fun bs => moves_isEmpty.bind fun empty => ?_
    split
    · exact moves_pure _
    · exact moves_throw _

/-- Padding is the same a multiple of the alignment further on. -/
theorem moves_pad {a : Nat} (h : (a : Int) ∣ n) : Moves n (pad a) (pad a) := by
  refine moves_position fun p => ?_
  simp only [padTo_add_of_dvd h]
  split
  · exact moves_pure ()
  · exact (moves_readBytes _ _).map

theorem moves_finish : Moves n finish finish := by
  intro s
  rw [finish, finish, Source.shift_rest]
  by_cases h0 : s.rest.isEmpty = true
  · rw [if_pos h0, if_pos h0]
    rfl
  · rw [if_neg h0, if_neg h0]
    rfl

/-- The whole of an input is read in the same way. -/
theorem Moves.run (h : Moves n get get') (s : Source) : Get.run get' (s.shift n) = Get.run get s := by
  have hwhole := (h.bind fun a => moves_finish.bind fun _ => moves_pure a) s
  rw [Get.run, Get.run, hwhole]
  cases (do let a ← get; finish; return a : Get α) s <;> rfl

/-! ### Scalars -/

theorem moves_int (f : Integer.Format) : Moves n (int f) (int f) := (moves_readBytes _ _).map

theorem moves_boolean (w : Nat) (o : ByteOrder) : Moves n (boolean w o) (boolean w o) := by
  refine (moves_int _).bind fun k => ?_
  split
  · exact moves_pure _
  split
  · exact moves_pure _
  · exact moves_fail _

theorem moves_chars (w : Nat) (o : ByteOrder) : Moves n (chars w o) (chars w o) := by
  unfold chars
  by_cases hw : w = 0
  · simp only [if_pos hw]
    refine moves_readAll.bind fun bs => ?_
    split
    · exact (moves_fail _).bind fun _ => moves_ofExcept _
    · exact moves_ofExcept _
  · simp only [if_neg hw]
    refine (moves_int _).bind fun k => (moves_readBytes k true).bind fun bs => moves_readByte.bind fun b => ?_
    split
    · exact (moves_fail _).bind fun _ => moves_ofExcept _
    · exact moves_ofExcept _

theorem moves_string (w : Nat) (o : ByteOrder) : Moves n (string w o) (string w o) := (moves_chars w o).map

theorem moves_objectPath (w : Nat) (o : ByteOrder) : Moves n (objectPath w o) (objectPath w o) := by
  refine (moves_string w o).bind fun s => ?_
  split
  · exact moves_pure s
  · exact moves_fail _

theorem moves_signature (pre : Bool) (format : Option WireFormat) :
    Moves n (signature pre format) (signature pre format) := by
  have hwithin (w : Nat) : Moves n (signatureWithin w format) (signatureWithin w format) := by
    refine (moves_string w .little).bind fun s => ?_
    cases Signature.parseAll { format } (Text.ofString s) with
    | ok ts => exact moves_pure s
    | error e => exact moves_fail _
  intro s
  rw [signature_apply, signature_apply, Source.shift_rest]
  by_cases hlong : (!pre && decide (Limits.signatureLength + 1 < s.rest.length)) = true
  · rw [if_pos hlong, if_pos hlong]
    rfl
  · rw [if_neg hlong, if_neg hlong]
    exact hwithin _ s

end Get

namespace Gvariant

open Get Framing

variable {c : Codec} {n : Int}

theorem moves_getScalar (o : ByteOrder) : ∀ b : Basic, Moves n (getScalar o b) (getScalar o b)
  | .int _ => (moves_int _).map
  | .boolean => (moves_boolean _ o).map
  | .double => (moves_readBytes _ _).map.map
  | .text .string => (moves_string _ o).map
  | .text .objectPath => (moves_objectPath _ o).map
  | .text .signature => (moves_signature false _).map

/-- A window is read in the same way wherever its reader can be moved. -/
theorem inside_add {get : Get Value} (h : Moves n get get) (p : Int) (bs : List UInt8) :
    inside (n + p) bs get = inside p bs get := h.run ⟨p, bs, []⟩

theorem moves_getElements {get : Get Value} (h : Moves n get get) (l : Layout) :
    Moves n (getElements l get) (getElements l get) := by
  refine moves_position fun base => moves_readAll.bind fun bs => (moves_ofExcept _).bind fun f => ?_
  simp only [inWindow, add_assoc, inside_add h]
  exact moves_ofExcept _

theorem moves_getMembers {get : Ty → Get Value} {ts : List Ty} (h : ∀ t ∈ ts, Moves n (get t) (get t)) :
    Moves n (getMembers get ts) (getMembers get ts) := by
  refine moves_position fun base => moves_readAll.bind fun bs => (moves_ofExcept _).bind fun ws => ?_
  have hall : (ws.zip ts).mapM (fun m => inWindow (n + base) bs.toArray m.1 (get m.2)) =
      (ws.zip ts).mapM fun m => inWindow base bs.toArray m.1 (get m.2) := by
    refine mapM_congr fun m hm => ?_
    rw [inWindow, inWindow, add_assoc, inside_add (h m.2 (List.of_mem_zip hm).2)]
  rw [hall]
  exact moves_ofExcept _

/-- **Whatever is read at an aligned position is read in the same way at any other one.** -/
theorem moves_get (c : Codec) : ∀ (room : Nat) {t : Ty}, (t.gvariantAlignment : Int) ∣ n →
    Moves n (get c room t) (get c room t)
  | 0, _, _ => moves_fail _
  | room + 1, t, h => by
    refine (moves_pad h).bind fun _ => ?_
    have hbelow {u : Ty} (hu : u.gvariantAlignment ∣ t.gvariantAlignment) : Moves n (get c room u) (get c room u) :=
      moves_get c room ((Int.natCast_dvd_natCast.2 hu).trans h)
    cases t with
    | basic b => exact (moves_getScalar c.order b).map
    | array t => exact (moves_getElements (hbelow (by rw [Ty.gvariantAlignment])) _).map
    | struct ts =>
      refine (moves_getMembers fun t ht => hbelow ?_).map
      rw [Ty.gvariantAlignment]
      exact Ty.dvd_gvariantAlignments ht
    | entry k t =>
      refine (moves_getMembers fun t ht => hbelow ?_).bind fun vs => ?_
      · rw [Ty.gvariantAlignment_entry, Ty.gvariantAlignment]
        exact Ty.dvd_gvariantAlignments ht
      · split <;> exact moves_pure _
    | variant =>
      refine moves_position fun base => moves_readAll.bind fun bs => ?_
      cases splitVariant bs with
      | none => exact moves_fail _
      | some parts =>
        refine (moves_ofExcept _).bind fun t => ?_
        rw [inside_add (hbelow t.gvariantAlignment_dvd_eight)]
        exact (moves_ofExcept _).map
    | maybe t =>
      refine moves_position fun base => moves_readAll.bind fun bs => ?_
      simp only [inside_add (hbelow (u := t) (by rw [Ty.gvariantAlignment]))]
      split
      · exact moves_pure _
      split
      · exact (moves_ofExcept _).map
      split
      · exact moves_fail _
      · exact (moves_ofExcept _).map

/-! ## Any position -/

section

variable {room : Nat} {v : Value}

/-- Where a value has cells they are written behind padding. -/
theorem put_of_cells (hv : v.isTyped = true) {cs : List Cell} (hcs : cells c room v = .ok cs) (bytes : Array UInt8) :
    put c room v ⟨bytes, []⟩ =
      .ok () ⟨bytes ++ (List.replicate (padTo bytes.size v.ty.gvariantAlignment) 0 ++ Cell.render cs), []⟩ := by
  rw [(lays_put c room hv).apply_of_ok bytes (by rw [hcs]; rfl), Cell.render_append, Cell.render_blank]

theorem exists_put_of_cells (hv : v.isTyped = true) {e : Error} (he : cells c room v = .error e)
    (bytes : Array UInt8) : ∃ s, put c room v ⟨bytes, []⟩ = .error e s :=
  (lays_put c room hv).apply_of_error bytes (by rw [he]; rfl)

/-- Nothing is in front of what is written onto an empty sink. -/
theorem put_of_cells_empty (hv : v.isTyped = true) {cs : List Cell} (hcs : cells c room v = .ok cs) :
    put c room v {} = .ok () ⟨(Cell.render cs).toArray, []⟩ := by
  have hzero : padTo (0 : Nat) v.ty.gvariantAlignment = 0 := padTo_of_dvd (dvd_zero _)
  have happend : (#[] : Array UInt8) ++ Cell.render cs = (Cell.render cs).toArray :=
    Array.toList_inj.1 Array.toList_appendList
  have hput := put_of_cells hv hcs #[]
  rwa [List.size_toArray, List.length_nil, hzero, List.replicate_zero, List.nil_append, happend] at hput

end

/-- **A value is the same wherever it stands.** It is written behind any bytes exactly when it is written onto an empty
sink, and what is added then is the padding up to its alignment and the same bytes; if it is not written the error is
the same. From any position that is aligned for a type, a window is read with the same result as from position zero.
That the elements of an array are of its type is all that the value has to meet. -/
theorem position_independent (c : Codec) (d : Int) {v : Value} (hv : v.isTyped = true) :
    (∀ bytes : Array UInt8,
      (∀ s, put c (c.roomAt d) v ⟨bytes, []⟩ = .ok () s ↔ ∃ s₀, put c (c.roomAt d) v {} = .ok () s₀ ∧
        s = ⟨bytes ++ (List.replicate (padTo bytes.size v.ty.gvariantAlignment) 0 ++ s₀.bytes.toList), []⟩) ∧
      ∀ e, (∃ s, put c (c.roomAt d) v ⟨bytes, []⟩ = .error e s) ↔ ∃ s, put c (c.roomAt d) v {} = .error e s) ∧
    ∀ (t : Ty) (p : Int), (t.gvariantAlignment : Int) ∣ p → ∀ bs,
      (∀ caps, get c (c.roomAt d) t ⟨p, bs, caps⟩ = shifted p (get c (c.roomAt d) t ⟨0, bs, caps⟩)) ∧
        inside p bs (get c (c.roomAt d) t) = inside 0 bs (get c (c.roomAt d) t) := by
  refine ⟨fun bytes => ?_, fun t p hp bs => ?_⟩
  · cases hcells : cells c (c.roomAt d) v with
    | error e =>
      obtain ⟨s₁, h1⟩ := exists_put_of_cells hv hcells bytes
      obtain ⟨s₂, h2⟩ := exists_put_of_cells hv hcells #[]
      rw [h1, h2]
      simp
    | ok cs =>
      rw [put_of_cells hv hcells, put_of_cells_empty hv hcells]
      simp [eq_comm]
  · have hmoves := moves_get c (c.roomAt d) hp
    refine ⟨fun caps => ?_, ?_⟩
    · have h := hmoves ⟨0, bs, caps⟩
      rwa [Source.shift, add_zero] at h
    · have h := inside_add hmoves 0 bs
      rwa [add_zero] at h

/-- A structure with a variant in it, behind three bytes and behind none, and a window at position eight. -/
theorem position_independent_struct :
    let c : Codec := ⟨.gvariant, .little, 64, 0⟩
    let v : Value := .struct [.scalar (.int .byte 7), .variant (.scalar (.int .int16 (-2)))]
    v.isTyped = true ∧
      put c (c.roomAt 3) v ⟨#[1, 2, 3], []⟩ =
        .ok () ⟨#[1, 2, 3, 0, 0, 0, 0, 0, 7, 0, 0, 0, 0, 0, 0, 0, 254, 255, 0, 110], []⟩ ∧
      (v.ty.gvariantAlignment : Int) ∣ 8 ∧
        inside 8 [7, 0, 0, 0, 0, 0, 0, 0, 254, 255, 0, 110] (get c (c.roomAt 3) v.ty) = .ok v := by
  intro c v
  have hv : v.isTyped = true := by decide
  obtain ⟨hput, hget⟩ := position_independent c 3 hv
  have halign : (v.ty.gvariantAlignment : Int) ∣ 8 := by decide
  have hwrite : put c (c.roomAt 3) v {} = .ok () ⟨#[7, 0, 0, 0, 0, 0, 0, 0, 254, 255, 0, 110], []⟩ := by
    simp only [c, v]
    rfl
  have hread : inside 0 [7, 0, 0, 0, 0, 0, 0, 0, 254, 255, 0, 110] (get c (c.roomAt 3) v.ty) = .ok v := by
    simp only [c, v]
    rfl
  exact ⟨hv, ((hput #[1, 2, 3]).1 _).2 ⟨_, hwrite, rfl⟩, halign, (hget v.ty 8 halign _).2.trans hread⟩

end Gvariant

end Marshal
