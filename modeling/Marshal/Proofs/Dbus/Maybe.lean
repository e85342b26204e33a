import Marshal.Proofs.Caps
import Marshal.Proofs.Dbus.Refusal
/-!
# Maybe types in D-Bus

The encoder refuses what shows a maybe type. It comes to every part of a value, and what it overlooks are the types that
an array without elements mentions below the type of its elements (`Ty.hidesMaybe`). Where there are none of these, a
value that mentions a maybe type shows one.
-/
namespace Marshal

namespace Ty

/-- Whether a type mentions maybe types but is none. -/
def hidesMaybe (t : Ty) : Bool := t.mentionsMaybe && !t.isMaybe

theorem mentionsMaybe_of_isMaybe {t : Ty} (h : t.isMaybe = false) (hh : t.hidesMaybe = false) :
    t.mentionsMaybe = false := by
  rwa [hidesMaybe, h, Bool.not_false, Bool.and_true] at hh

end Ty

namespace Value

mutual
/-- The element types of arrays without elements, at every level, also in variants. -/
def emptyElements : Value → List Ty
  | .scalar _ | .nothing _ => []
  | .array t vs => if vs.isEmpty then [t] else emptyElementsOf vs
  | .struct vs => emptyElementsOf vs
  | .entry _ v | .variant v | .just v => emptyElements v

def emptyElementsOf : List Value → List Ty
  | [] => []
  | v :: vs => emptyElements v ++ emptyElementsOf vs
end

mutual
/-- **What shows no maybe type mentions none**, unless an array without elements hides one. -/
theorem mentionsMaybe_of_showsMaybe : ∀ v : Value, v.isWellFormed = true →
    (∀ t ∈ v.emptyElements, t.hidesMaybe = false) → v.showsMaybe = false →
      v.ty.mentionsMaybe = false ∧ ∀ t ∈ v.heldTypes, t.mentionsMaybe = false
  | .scalar s, _, _, _ => ⟨rfl, List.forall_mem_nil _⟩
  | .array t [], _, hh, hs => by
    rw [showsMaybe, Bool.or_eq_false_iff] at hs
    have ht : t.mentionsMaybe = false := Ty.mentionsMaybe_of_isMaybe hs.1 (hh t (List.mem_singleton_self t))
    exact ⟨ht, List.forall_mem_nil _⟩
  | .array t (v :: vs), hv, hh, hs => by
    simp only [isWellFormed, Bool.and_eq_true, areOf_iff] at hv
    rw [showsMaybe, Bool.or_eq_false_iff] at hs
    obtain ⟨htys, hheld⟩ := mentionsMaybe_of_showMaybe (v :: vs) (fun w hw => (hv.2 w hw).1) hh hs.2
    obtain ⟨-, rfl⟩ := hv.2 v List.mem_cons_self
    exact ⟨htys v List.mem_cons_self, hheld⟩
  | .struct vs, hv, hh, hs => by
    simp only [isWellFormed, Bool.and_eq_true, areWellFormed_iff] at hv
    obtain ⟨htys, hheld⟩ := mentionsMaybe_of_showMaybe vs hv.2 hh hs
    refine ⟨?_, hheld⟩
    rw [ty, Ty.mentionsMaybe, Ty.mentionMaybe_eq_false_iff, tys_eq_map]
    exact List.forall_mem_map.2 htys
  | .entry k v, hv, hh, hs => by
    simp only [isWellFormed, Bool.and_eq_true] at hv
    exact mentionsMaybe_of_showsMaybe v hv.2 hh hs
  | .variant v, hv, hh, hs => by
    simp only [isWellFormed, Bool.and_eq_true] at hv
    exact ⟨rfl, List.forall_mem_cons.2 (mentionsMaybe_of_showsMaybe v hv.2 hh hs)⟩

theorem mentionsMaybe_of_showMaybe : ∀ vs : List Value, (∀ v ∈ vs, v.isWellFormed = true) →
    (∀ t ∈ emptyElementsOf vs, t.hidesMaybe = false) → showMaybe vs = false →
      (∀ v ∈ vs, v.ty.mentionsMaybe = false) ∧ ∀ t ∈ heldTypesOf vs, t.mentionsMaybe = false
  | [], _, _, _ => ⟨List.forall_mem_nil _, List.forall_mem_nil _⟩
  | v :: vs, hv, hh, hs => by
    rw [List.forall_mem_cons] at hv
    rw [emptyElementsOf, List.forall_mem_append] at hh
    rw [showMaybe, Bool.or_eq_false_iff] at hs
    obtain ⟨hty, hheld⟩ := mentionsMaybe_of_showsMaybe v hv.1 hh.1 hs.1
    obtain ⟨htys, hhelds⟩ := mentionsMaybe_of_showMaybe vs hv.2 hh.2 hs.2
    exact ⟨List.forall_mem_cons.2 ⟨hty, htys⟩, List.forall_mem_append.2 ⟨hheld, hhelds⟩⟩
end

mutual
/-- **What mentions no maybe type shows none.** -/
theorem showsMaybe_of_mentionsMaybe : ∀ v : Value, v.isTyped = true → v.ty.mentionsMaybe = false →
    (∀ t ∈ v.heldTypes, t.mentionsMaybe = false) → v.showsMaybe = false
  | .scalar _, _, _, _ => rfl
  | .array t vs, hv, ht, hheld => by
    rw [isTyped, haveType_iff] at hv
    rw [ty, Ty.mentionsMaybe] at ht
    have hnot : t.isMaybe = false := by
      cases t with
      | maybe _ => cases ht
      | basic _ | array _ | struct _ | entry _ _ | variant => rfl
    have hvs : showMaybe vs = false := showMaybe_of_mentionsMaybe vs (fun w hw => (hv w hw).1)
      (fun w hw => (hv w hw).2.symm ▸ ht) hheld
    rw [showsMaybe, hnot, hvs]
    rfl
  | .struct vs, hv, ht, hheld => by
    rw [isTyped, areTyped_iff] at hv
    rw [ty, Ty.mentionsMaybe, Ty.mentionMaybe_eq_false_iff, tys_eq_map, List.forall_mem_map] at ht
    exact showMaybe_of_mentionsMaybe vs hv ht hheld
  | .entry _ v, hv, ht, hheld => showsMaybe_of_mentionsMaybe v hv ht hheld
  | .variant v, hv, _, hheld => by
    obtain ⟨ht, hheld⟩ := List.forall_mem_cons.1 hheld
    exact showsMaybe_of_mentionsMaybe v hv ht hheld
  | .nothing _, _, ht, _ | .just _, _, ht, _ => by cases ht

theorem showMaybe_of_mentionsMaybe : ∀ vs : List Value, (∀ v ∈ vs, v.isTyped = true) →
    (∀ v ∈ vs, v.ty.mentionsMaybe = false) → (∀ t ∈ heldTypesOf vs, t.mentionsMaybe = false) → showMaybe vs = false
  | [], _, _, _ => rfl
  | v :: vs, hv, ht, hheld => by
    rw [List.forall_mem_cons] at hv ht
    rw [heldTypesOf, List.forall_mem_append] at hheld
    rw [showMaybe, showsMaybe_of_mentionsMaybe v hv.1 ht.1 hheld.1, showMaybe_of_mentionsMaybe vs hv.2 ht.2 hheld.2]
    rfl
end

end Value

namespace Dbus

open Cell

variable {c : Codec}

/-! ## What else a value is refused for -/

/-- The kinds of errors that an encoder has for a value of types that the format has. -/
def unfit : List ErrorKind := [.mismatch, .valueDepth, .arrayLength, .overflow]

/-- A value is refused for a maybe type that it shows, or because it does not fit. -/
theorem Refusal.maybe_or_unfit {room p : Nat} {v : Value} {e : Error} (h : Refusal c room p v e) :
    e = .maybeUnsupported ∧ v.showsMaybe = true ∨ e.kind ∈ unfit := by
  cases h with
  | maybe h => exact .inl ⟨rfl, h⟩
  | mismatch h =>
    rw [h]
    exact .inr (by decide)
  | tooDeep | tooLong | overflow => exact .inr (by simp [unfit, Error.kind])

/-! ## Values that mention maybe types -/

theorem encode_ne_ok_of_showsMaybe (hc : c.format = .dbus) {v : Value} (hs : v.showsMaybe = true) (cap : Option Int)
    (b : Array UInt8) : c.encode cap v ≠ .ok b := by
  intro h
  rw [Codec.encode, Codec.put, hc] at h
  obtain ⟨s, hput, -⟩ := Put.run_eq_ok_iff.1 h
  obtain ⟨cs, hcs, -⟩ := (lays_put c c.room v).ok hput
  obtain ⟨cs, hcs, -⟩ := except_map_eq_ok.1 hcs
  rw [showsMaybe_of_cells hcs] at hs
  cases hs

theorem error_of_encode (hc : c.format = .dbus) {v : Value} {cap : Option Int} {e : Error}
    (h : c.encode cap v = .error e) :
    e = .maybeUnsupported ∧ v.showsMaybe = true ∨ e.kind ∈ ErrorKind.byteCap :: unfit := by
  rcases (c.composed_put 0 v).error_of_run_capped h with h | ⟨N, -, rfl⟩
  · have hnone : c.encode none v = .error e := h
    rw [encode_eq hc] at hnone
    exact (refusal_of_cells (except_map_eq_error.1 hnone)).maybe_or_unfit.imp_right (List.mem_cons_of_mem _)
  · exact .inr List.mem_cons_self

/-- **What shows a maybe type has no D-Bus encoding.** It is refused for the maybe type or for something that the
encoder comes to before it, and nothing else is refused for a maybe type. A value that mentions one shows one, unless an
array without elements hides it. -/
theorem encode_of_mentionsMaybe (hc : c.format = .dbus) (v : Value) :
    (v.isWellFormed = true → (v.ty.mentionsMaybe = true ∨ ∃ t ∈ v.heldTypes, t.mentionsMaybe = true) →
      (∀ t ∈ v.emptyElements, t.hidesMaybe = false) → v.showsMaybe = true) ∧
      (v.showsMaybe = true → ∀ cap, ∃ e, c.encode cap v = .error e ∧ ((∀ N ∈ cap, 0 ≤ N) →
        e = .maybeUnsupported ∨ e.kind ∈ ErrorKind.byteCap :: unfit)) ∧
      (v.showsMaybe = false → ∀ cap, (∀ N ∈ cap, 0 ≤ N) → c.encode cap v ≠ .error .maybeUnsupported) := by
  refine ⟨fun hv hm hh => ?_, fun hs cap => ?_, fun hs cap _ h => ?_⟩
  · by_contra hs
    obtain ⟨hty, hheld⟩ := v.mentionsMaybe_of_showsMaybe hv hh (Bool.eq_false_iff.2 hs)
    rcases hm with hm | ⟨t, ht, hm⟩
    · rw [hty] at hm
      cases hm
    · rw [hheld t ht] at hm
      cases hm
  · cases h : c.encode cap v with
    | ok b => exact absurd h (encode_ne_ok_of_showsMaybe hc hs cap b)
    | error e => exact ⟨e, rfl, fun _ => (error_of_encode hc h).imp_left And.left⟩
  · rcases error_of_encode hc h with ⟨-, hs'⟩ | hk
    · rw [hs] at hs'
      cases hs'
    · revert hk
      decide

/-- A variant that holds a structure with an absent byte is refused. -/
theorem encode_of_mentionsMaybe_inVariant :
    let c : Codec := ⟨.dbus, .little, 64, 1024⟩
    let v : Value := .variant (.struct [.scalar (.int .byte 7), .nothing (.basic (.int .byte))])
    c.format = .dbus ∧ v.isWellFormed = true ∧ (∃ t ∈ v.heldTypes, t.mentionsMaybe = true) ∧
      ∃ e, c.encode (some 16) v = .error e ∧
        (e = .maybeUnsupported ∨ e.kind ∈ ErrorKind.byteCap :: unfit) := by
  intro c v
  have hv : v.isWellFormed = true := by decide
  have hheld : ∃ t ∈ v.heldTypes, t.mentionsMaybe = true := by decide
  obtain ⟨hshows, hrefused, -⟩ := encode_of_mentionsMaybe (c := c) rfl v
  obtain ⟨e, he, hcases⟩ := hrefused (hshows hv (.inr hheld) (by decide)) (some 16)
  exact ⟨rfl, hv, hheld, e, he, hcases (by decide)⟩

/-- An array without elements is written whatever maybe types it mentions below that of its elements, also in a variant,
and there the decoder refuses it. -/
theorem encode_hidden_maybe :
    let c : Codec := ⟨.dbus, .little, 64, 1024⟩
    let v : Value := .array (.array (.maybe (.basic (.int .byte)))) []
    v.isWellFormed = true ∧ v.ty.mentionsMaybe = true ∧ c.encode none v = .ok #[0, 0, 0, 0] ∧
      (Value.variant v).isWellFormed = true ∧
      c.encode none (.variant v) = .ok #[4, 97, 97, 109, 121, 0, 0, 0, 0, 0, 0, 0] ∧
      ∃ e, c.decode none [4, 97, 97, 109, 121, 0, 0, 0, 0, 0, 0, 0] .variant = .error e ∧
        e.kind = .decode .signature := by
  exact ⟨by decide, by decide, rfl, by decide, rfl, _, rfl, rfl⟩

end Dbus

end Marshal
