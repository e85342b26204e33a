import Marshal.Proofs.Dbus.Layout
import Marshal.Proofs.Nesting
/-!
# How long a D-Bus value is

Where a value ends follows from where it starts, and nothing has to be written to know it: `stop` counts the padding and
the bytes of every part, and `arrayLengths` the bytes that the elements of each array take where the array comes to
stand. What is written for a value ends there (`stop_of_cells`).
-/
namespace Marshal.Dbus

open Cell

/-- The number of bytes of a scalar. -/
def scalarSize : Scalar → Nat
  | .int k _ => k.width
  | .boolean _ => booleanWidth
  | .double _ => 8
  | .text .signature s => 1 + ((Utf8.encode s.toList).length + 1)
  | .text .string s | .text .objectPath s => lengthWidth + ((Utf8.encode s.toList).length + 1)

theorem scalarSize_pos : ∀ s : Scalar, 0 < scalarSize s
  | .int k _ => pos_of_dvd_eight k.width_dvd_eight
  | .boolean _ => (by decide : 0 < booleanWidth)
  | .double _ => (by decide : 0 < 8)
  | .text .signature _ => Nat.lt_add_right _ Nat.one_pos
  | .text .string _ | .text .objectPath _ => Nat.lt_add_right _ (by decide : 0 < lengthWidth)

/-- Where a value of a type starts that comes after a position. A maybe type has no place of its own. -/
def start (t : Ty) (p : Nat) : Nat := alignUp p (t.dbusAlignment?.getD 1)

def scalarStop (p : Nat) (s : Scalar) : Nat := start (.basic s.basic) p + scalarSize s

/-- Where the elements of an array start, behind their length. -/
def elementsStart (t : Ty) (p : Nat) : Nat := start t (start (.array t) p + lengthWidth)

/-- Where what a variant holds comes to stand, behind its signature. -/
def heldStart (t : Ty) (p : Nat) : Nat := start .variant p + (1 + (t.signature.length + 1))

mutual
/-- Where a value ends that comes after a position. -/
def stop (p : Nat) : Value → Nat
  | .scalar s => scalarStop p s
  | .array t vs => stops (elementsStart t p) vs
  | .struct vs => stops (start (.struct (Value.tys vs)) p) vs
  | .entry k v => stop (scalarStop (start (.entry k.basic v.ty) p) k) v
  | .variant v => stop (heldStart v.ty p) v
  | .nothing _ | .just _ => p

def stops (p : Nat) : List Value → Nat
  | [] => p
  | v :: vs => stops (stop p v) vs
end

mutual
/-- The numbers of bytes that the elements of each array in a value take, at every level, also in variants. -/
def arrayLengths (p : Nat) : Value → List Nat
  | .scalar _ | .nothing _ | .just _ => []
  | .array t vs => (stops (elementsStart t p) vs - elementsStart t p) :: arrayLengthsOf (elementsStart t p) vs
  | .struct vs => arrayLengthsOf (start (.struct (Value.tys vs)) p) vs
  | .entry k v => arrayLengths (scalarStop (start (.entry k.basic v.ty) p) k) v
  | .variant v => arrayLengths (heldStart v.ty p) v

def arrayLengthsOf (p : Nat) : List Value → List Nat
  | [] => []
  | v :: vs => arrayLengths p v ++ arrayLengthsOf (stop p v) vs
end

variable {c : Codec} {room p : Nat}

theorem length_scalarBytes {o : ByteOrder} {s : Scalar} {bs : List UInt8} (h : scalarBytes o s = .ok bs) :
    bs.length = scalarSize s := by
  cases s with
  | int k n => exact length_intBytes h
  | boolean b => exact length_intBytes h
  | double bits =>
    cases h
    exact length_doubleBytes o bits
  | text k s =>
    cases k with
    | string | objectPath => exact length_charsBytes h
    | signature =>
      rw [scalarBytes] at h
      split at h
      · exact length_charsBytes (signatureBytes_eq_ok.1 h).2
      · cases h

/-- A signature takes a byte for each character. -/
theorem length_signatureBytes {t : Ty} {bs : List UInt8} (h : signatureBytes true t.signature = .ok bs) :
    bs.length = 1 + (t.signature.length + 1) := by
  rw [← Ty.ofString_signatureString] at h
  rw [length_charsBytes (signatureBytes_eq_ok.1 h).2, Utf8.encode_of_ascii _ fun c hc => ?_,
    ← Ty.ofString_signatureString]
  · simp [Text.ofString]
  · refine (Ty.mem_signature (t := t) ?_).2
    rw [← Ty.ofString_signatureString]
    exact List.mem_map_of_mem hc

theorem start_of_alignment {t : Ty} {a : Nat} (h : alignment t = .ok a) (p : Nat) : p + padTo p a = start t p := by
  unfold alignment at h
  split at h
  · rename_i b hb
    cases h
    rw [start, hb, Option.getD_some, alignUp]
  · cases h

theorem stops_of_inTurn {f : Nat → Value → Except Error (List Cell)}
    (hf : ∀ {q : Nat} {v : Value} {cs : List Cell}, f q v = .ok cs → q + cs.length = stop q v) :
    ∀ {vs : List Value} {q : Nat} {cs : List Cell}, inTurn f q vs = .ok cs → q + cs.length = stops q vs
  | [], q, cs, h => by
    rw [inTurn_nil_eq_ok.1 h]
    rfl
  | v :: vs, q, cs, h => by
    obtain ⟨as, bs, h1, h2, rfl⟩ := inTurn_cons_eq_ok.1 h
    rw [hf h1] at h2
    rw [List.length_append, ← Nat.add_assoc, hf h1, stops_of_inTurn hf h2, stops]

/-- **What is written for a value ends where the value does.** -/
theorem stop_of_cells : ∀ {room p : Nat} {v : Value} {cs : List Cell}, cells c room p v = .ok cs →
    p + cs.length = stop p v
  | room + 1, p, v, cs, h => by
    obtain ⟨a, body, ha, hb, rfl⟩ := cells_eq_ok.1 h
    rw [List.length_append, length_blank, ← Nat.add_assoc, start_of_alignment ha]
    rw [start_of_alignment ha] at hb
    have hitems {vs : List Value} {q : Nat} {cs : List Cell} : inTurn (cells c room) q vs = .ok cs →
        q + cs.length = stops q vs := stops_of_inTurn fun h => stop_of_cells h
    cases v with
    | scalar s =>
      obtain ⟨bs, hs, rfl⟩ := except_map_eq_ok.1 hb
      rw [length_given, length_scalarBytes hs]
      rfl
    | array t items =>
      obtain ⟨b, elements, length, ht, helements, hl, rfl⟩ := arrayCells_eq_ok.1 hb
      have hwidth := Integer.length_of_encode? (lengthOf_eq_ok.1 hl).2
      have hgap := start_of_alignment ht (start (Value.array t items).ty p + lengthWidth)
      rw [hgap] at helements
      rw [List.length_append, List.length_append, length_given, length_blank, hwidth, stop, elementsStart]
      rw [← Value.ty, ← hitems helements, ← hgap]
      simp only [lengthFormat]
      omega
    | struct members => exact hitems hb
    | entry k w =>
      rw [contentCells, follow_eq_ok] at hb
      obtain ⟨as, bs, h1, h2, rfl⟩ := hb
      rw [stop_of_cells h1] at h2
      rw [List.length_append, ← Nat.add_assoc, stop_of_cells h1, stop_of_cells h2]
      rfl
    | variant w =>
      rw [contentCells, follow_eq_ok] at hb
      obtain ⟨as, bs, h1, h2, rfl⟩ := hb
      obtain ⟨text, htext, rfl⟩ := except_map_eq_ok.1 h1
      rw [length_given, length_signatureBytes htext] at h2
      rw [List.length_append, ← Nat.add_assoc, length_given, length_signatureBytes htext, stop_of_cells h2]
      rfl
    | nothing t | just w => cases hb

end Marshal.Dbus
