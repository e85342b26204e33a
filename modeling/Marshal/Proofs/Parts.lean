import Marshal.Codec
import Marshal.Proofs.Framing.Blocks
/-!
# The bytes of each part of a value

A decoded value has parts at every level, and each part has bytes of its own in the input. `Parts` says how the
children of a container share its bytes: each has a run of them, one behind the other, with anything between them. On
top of that `Codec.Unamplified` goes down a whole value. The bytes of a part are pinned by decoding: read alone, they
give that part.
-/
namespace Marshal

/-- Whether values have runs of bytes, one behind the other, with `P` true of the position of each, its bytes and it. -/
inductive Parts (P : Int → List UInt8 → Value → Prop) : Int → List UInt8 → List Value → Prop
  | nil {p : Int} {bs : List UInt8} : Parts P p bs []
  | cons {p : Int} {gap as bs : List UInt8} {v : Value} {vs : List Value} (hv : P (p + gap.length) as v)
      (hvs : Parts P (p + gap.length + as.length) bs vs) : Parts P p (gap ++ (as ++ bs)) (v :: vs)

namespace Parts

variable {P Q : Int → List UInt8 → Value → Prop} {p : Int} {as bs : List UInt8} {v : Value} {us vs : List Value}

theorem mono (h : Parts P p bs vs) (hPQ : ∀ {p bs v}, P p bs v → Q p bs v) : Parts Q p bs vs := by
  induction h with
  | nil => exact .nil
  | cons hv _ ih => exact .cons (hPQ hv) ih

/-- Bytes in front are between the values and what is before them. -/
theorem behind (h : Parts P (p + as.length) bs vs) : Parts P p (as ++ bs) vs := by
  generalize hq : p + as.length = q at h
  cases h with
  | nil => exact .nil
  | @cons _ gap as' bs v vs hv hvs =>
    have hgap : p + ((as ++ gap).length : Int) = q + gap.length := by
      rw [List.length_append, Nat.cast_add, ← hq, add_assoc]
    rw [← List.append_assoc]
    exact .cons (by rwa [hgap]) (by rwa [hgap])

theorem append (h : Parts P p as us) (h' : Parts P (p + as.length) bs vs) : Parts P p (as ++ bs) (us ++ vs) := by
  induction h with
  | nil => exact h'.behind
  | @cons p gap as as' v us hv _ ih =>
    rw [List.append_assoc, List.append_assoc, List.cons_append]
    refine .cons hv (ih ?_)
    rwa [List.length_append, List.length_append, Nat.cast_add, Nat.cast_add, ← add_assoc, ← add_assoc] at h'

/-- A value that has the bytes in front. -/
theorem front (h : P p as v) : Parts P p (as ++ bs) [v] := by
  have hv : P (p + ([] : List UInt8).length) as v := by rwa [List.length_nil, Nat.cast_zero, add_zero]
  exact .cons hv .nil

theorem whole (h : P p bs v) : Parts P p bs [v] := by
  have hfront : Parts P p (bs ++ []) [v] := front h
  rwa [List.append_nil] at hfront

/-- There are no more values than bytes if none has no bytes. -/
theorem length_le (h : Parts P p bs vs) (hP : ∀ {p bs v}, P p bs v → bs ≠ []) : vs.length ≤ bs.length := by
  induction h with
  | nil => exact Nat.zero_le _
  | cons hv _ ih =>
    have hpos := List.length_pos_iff.2 (hP hv)
    rw [List.length_cons, List.length_append, List.length_append]
    omega

end Parts

/-! ## Windows -/

namespace Framing

variable {P : Int → List UInt8 → Value → Prop} {p : Int} {bs : List UInt8}

theorem Window.drop_start {w : Window} (h : w.start ≤ w.stop) : bs.drop w.start = w.slice bs ++ bs.drop w.stop := by
  rw [Window.slice, ← Nat.add_sub_cancel' h, Nat.add_sub_cancel_left, ← List.drop_drop, List.take_append_drop]

/-- Windows that follow one another are runs of bytes one behind the other. -/
theorem Tiled.parts_drop : ∀ {q : Nat} {ls : List Layout} {ws : List Window} {vs : List Value}, Tiled q ls ws →
    lastStop q ws ≤ bs.length → List.Forall₂ (fun w v => P (p + w.start) (w.slice bs) v) ws vs →
      Parts P (p + q) (bs.drop q) vs
  | _, [], _, _, _, _, .nil => .nil
  | q, l :: ls, w :: ws, v :: vs, ⟨hstart, hle, _, ht⟩, hlast, .cons hv hvs => by
    have hq : q ≤ w.start := hstart ▸ le_alignUp q l.alignment
    have hstop : w.stop ≤ bs.length := ht.le_lastStop.trans hlast
    have hgap : ((Window.mk q w.start).slice bs).length = w.start - q := Window.length_slice (hle.trans hstop)
    have hp : p + q + ((Window.mk q w.start).slice bs).length = p + w.start := by
      rw [hgap]
      omega
    rw [Window.drop_start (w := ⟨q, w.start⟩) hq, Window.drop_start hle]
    refine .cons (by rwa [hp]) ?_
    rw [hp, Window.length_slice hstop, add_assoc, ← Nat.cast_add, Nat.add_sub_cancel' hle]
    exact ht.parts_drop hlast hvs

theorem Tiled.parts {ls : List Layout} {ws : List Window} {vs : List Value} (h : Tiled 0 ls ws)
    (hlast : lastStop 0 ws ≤ bs.length) (hvs : List.Forall₂ (fun w v => P (p + w.start) (w.slice bs) v) ws vs) :
    Parts P p bs vs := by
  have hparts := h.parts_drop hlast hvs
  rwa [Nat.cast_zero, add_zero, List.drop_zero] at hparts

end Framing

/-! ## Whole values -/

namespace Codec

/-- Reading with room for a number of levels. -/
def getIn (c : Codec) (room : Nat) (t : Ty) : Get Value :=
  match c.format with
  | .dbus => Dbus.get c room t
  | .gvariant => Gvariant.get c room t

/-- The alignment of a type. A maybe type has none in D-Bus. -/
def alignment? (c : Codec) (t : Ty) : Option Nat :=
  match c.format with
  | .dbus => t.dbusAlignment?
  | .gvariant => some t.gvariantAlignment

/-- Whether bytes are those of a value and no others: it is aligned where they start, and they decode to it. -/
structure Encodes (c : Codec) (room : Nat) (p : Int) (bs : List UInt8) (v : Value) : Prop where
  aligned : ∀ a ∈ c.alignment? v.ty, (a : Int) ∣ p
  decoded : Get.run (c.getIn room v.ty) ⟨p, bs, []⟩ = .ok v

/-- Whether the bytes of a value, and of each of its parts at every level, are as many as it has elements or more. -/
def Unamplified (c : Codec) : (room : Nat) → Int → List UInt8 → Value → Prop
  | 0, _, _, _ => False
  | room + 1, p, bs, v => c.Encodes (room + 1) p bs v ∧ (∀ t items, v = .array t items → items.length ≤ bs.length) ∧
      Parts (c.Unamplified room) p bs v.children

end Codec

end Marshal
