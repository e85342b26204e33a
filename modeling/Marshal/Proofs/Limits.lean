import Marshal.Proofs.Easing
import Marshal.Proofs.Framing.Tables
import Marshal.Proofs.Narrowing
/-!
# Greater limits change nothing that succeeds

The limit on depth is the room that a value starts with and what signatures are read under, the limit on arrays is held
against the length of each, and the cap is charged for what passes. Each can refuse, and none chooses between two ways
to go on. So an encoder or decoder with greater limits follows one with smaller limits, level by level: `Follows` is
handed from the children of a container to the container.
-/
namespace Marshal

/-- Whether a second codec, of the same format and byte order, has limits that are at least those of a first. -/
structure Codec.Within (c c' : Codec) : Prop where
  format : c.format = c'.format
  order : c.order = c'.order
  maxDepth : c.maxDepth ≤ c'.maxDepth
  maxArrayLength : c.maxArrayLength ≤ c'.maxArrayLength

variable {c c' : Codec}

theorem Codec.Within.room_le (h : c.Within c') : c.room ≤ c'.room :=
  Int.toNat_le_toNat (Int.add_le_add_right h.maxDepth 1)

theorem Codec.Within.parse (h : c.Within c') {text : Text} {t : Ty} (hp : Signature.parse c.reading text = .ok t) :
    Signature.parse c'.reading text = .ok t := by
  rw [reading, ← h.format]
  exact Signature.parse_of_le h.maxDepth hp

/-! ## D-Bus -/

namespace Dbus

section Encoding

open Put

theorem follows_putArray (h : c.Within c') {put put' : Value → Put Unit} (element : Ty) {items : List Value}
    (hput : ∀ v ∈ items, Follows Sink.Eased (put v) (put' v)) :
    Follows Sink.Eased (putArray c put element items) (putArray c' put' element items) := by
  have hposition : Follows Sink.Eased Put.position Put.position := congruence_eased.position
  rw [putArray, putArray, ← h.order]
  refine (composed_putAlignment element).follows.bind fun a => hposition.bind fun l => ?_
  refine (composed_int _ 0).follows.bind fun _ => (composed_pad a).follows.bind fun _ => hposition.bind fun start => ?_
  refine (congruence_eased.forEach items hput).bind fun _ => hposition.bind fun stop => ?_
  have hmax := h.maxArrayLength
  by_cases hlt : c.maxArrayLength < (stop - start : Nat)
  · simp only [if_pos hlt]
    exact follows_throw
  · simp only [if_neg hlt, if_neg (show ¬ c'.maxArrayLength < (stop - start : Nat) by omega)]
    cases Integer.encode? (lengthFormat c.order) (stop - start : Nat) with
    | none => exact follows_throw
    | some bs => exact (Composed.overwrite (Int.natCast_nonneg l) bs).follows

theorem follows_put (h : c.Within c') : ∀ {room room' : Nat} (v : Value), room ≤ room' →
    Follows Sink.Eased (put c room v) (put c' room' v)
  | 0, _, _, _ => follows_throw
  | room + 1, room' + 1, _, hle => by
    have ih (w : Value) := follows_put h w (Nat.le_of_succ_le_succ hle)
    refine congr_put congruence_eased (fun s _ => ?_) (fun t _ _ => follows_putArray h t fun w _ => ih w)
      fun w _ => ih w
    rw [← h.order]
    exact (composed_putScalar c.order s).follows

end Encoding

section Decoding

open Get

variable {low high : Get Value}

theorem follows_getScalar (o : ByteOrder) : ∀ b : Basic, Follows Source.Eased (getScalar o b) (getScalar o b)
  | .int _ => (follows_int _).map
  | .boolean => (follows_boolean _ o).map
  | .double => (follows_double o).map
  | .text .string => (follows_string _ o).map
  | .text .objectPath => (follows_objectPath _ o).map
  | .text .signature => (follows_signature true _).map

theorem follows_getUntil (hget : Follows Source.Eased low high) (stop : Int) : ∀ (n : Nat) (items : List Value),
    Follows Source.Eased (getUntil stop low n items) (getUntil stop high n items)
  | 0, items => follows_pure _
  | n + 1, items => by
    rw [getUntil, getUntil]
    refine follows_position.bind fun p => ?_
    split
    · exact hget.bind fun v => follows_getUntil hget stop n (v :: items)
    · exact follows_pure _

theorem follows_getArray (h : c.Within c') (hget : Follows Source.Eased low high) (t : Ty) :
    Follows Source.Eased (getArray c low t) (getArray c' high t) := by
  rw [getArray, getArray, ← h.order]
  refine (follows_ofExcept fun _ => id).bind fun a => (follows_int _).bind fun n => ?_
  have hmax := h.maxArrayLength
  by_cases hlt : c.maxArrayLength < n.toNat
  · simp only [if_pos hlt]
    exact follows_fail_bind
  simp only [if_neg hlt, if_neg (show ¬ c'.maxArrayLength < n.toNat by omega)]
  refine (follows_pad a).bind fun _ => (follows_has _).bind fun enough => ?_
  split
  · exact follows_remaining.bind fun _ => follows_fail_bind
  refine follows_position.bind fun start => (follows_getUntil hget _ _ []).bind fun vs => ?_
  refine follows_position.bind fun p => ?_
  split
  · exact follows_fail_bind
  · exact follows_pure vs

theorem follows_getEach {low high : Ty → Get Value} (hget : ∀ t, Follows Source.Eased (low t) (high t))
    (ts : List Ty) : Follows Source.Eased (getEach low ts) (getEach high ts) := by
  induction ts with
  | nil => exact follows_pure []
  | cons t ts ih => exact (hget t).bind fun _ => ih.map

theorem follows_getKey (h : c.Within c') {room room' : Nat} (hle : room ≤ room') (k : Basic) :
    Follows Source.Eased (getKey c room k) (getKey c' room' k) := by
  rw [getKey, getKey, ← h.order]
  by_cases h0 : room = 0
  · simp only [if_pos h0]
    exact follows_fail_bind
  · simp only [if_neg h0, if_neg (show room' ≠ 0 by omega)]
    exact (follows_pad _).bind fun _ => follows_getScalar c.order k

theorem follows_get (h : c.Within c') : ∀ {room room' : Nat} (t : Ty), room ≤ room' →
    Follows Source.Eased (get c room t) (get c' room' t)
  | 0, _, _, _ => follows_fail
  | room + 1, room' + 1, t, hle => by
    have hle := Nat.le_of_succ_le_succ hle
    have ih (t : Ty) := follows_get h t hle
    refine (follows_ofExcept fun _ => id).bind fun a => (follows_pad a).bind fun _ => ?_
    cases t with
    | basic b =>
      simp only [← h.order]
      exact (follows_getScalar c.order b).map
    | array t => exact (follows_getArray h (ih t) t).map
    | struct ts => exact (follows_getEach ih ts).map
    | entry k t => exact (follows_getKey h hle k).bind fun _ => (ih t).map
    | variant =>
      refine (follows_signature true none).bind fun s => ?_
      cases hp : Signature.parse c.reading (Text.ofString s) with
      | error e => exact follows_fail
      | ok t =>
        rw [h.parse hp]
        exact (ih t).map
    | maybe t => exact follows_throw

end Decoding

end Dbus

/-! ## GVariant -/

namespace Gvariant

theorem follows_put (h : c.Within c') : ∀ {room room' : Nat} (v : Value), room ≤ room' →
    Follows Sink.Eased (put c room v) (put c' room' v)
  | 0, _, _, _ => follows_throw
  | room + 1, room' + 1, _, hle => by
    refine congr_put Put.congruence_eased (fun s _ => ?_) fun w _ => follows_put h w (Nat.le_of_succ_le_succ hle)
    rw [← h.order]
    exact (composed_putScalar c.order s).follows

open Get Framing

variable {low high : Get Value}

theorem follows_getScalar (o : ByteOrder) : ∀ b : Basic, Follows Source.Eased (getScalar o b) (getScalar o b)
  | .int _ => (follows_int _).map
  | .boolean => (follows_boolean _ o).map
  | .double => (follows_double o).map
  | .text .string => (follows_string _ o).map
  | .text .objectPath => (follows_objectPath _ o).map
  | .text .signature => (follows_signature false _).map

theorem inside_of_follows (hget : Follows Source.Eased low high) {p : Int} {bytes : List UInt8} {v : Value}
    (hr : inside p bytes low = .ok v) : inside p bytes high = .ok v := run_of_follows hget ⟨p, bytes, .free⟩ hr

theorem follows_getElements (l : Layout) (hget : Follows Source.Eased low high) :
    Follows Source.Eased (getElements l low) (getElements l high) := by
  refine follows_position.bind fun base => follows_readAll.bind fun data => ?_
  refine (follows_ofExcept fun _ => id).bind fun f => follows_ofExcept fun vs hvs => ?_
  refine mapM_eq_ok_iff.2 ((mapM_eq_ok_iff.1 hvs).imp fun i v hv => ?_)
  obtain ⟨w, hw, hv⟩ := except_bind_eq_ok.1 hv
  exact except_bind_eq_ok.2 ⟨w, hw, inside_of_follows hget hv⟩

theorem follows_getMembers {low high : Ty → Get Value} (hget : ∀ t, Follows Source.Eased (low t) (high t))
    (ts : List Ty) : Follows Source.Eased (getMembers low ts) (getMembers high ts) := by
  refine follows_position.bind fun base => follows_readAll.bind fun data => ?_
  refine (follows_ofExcept fun _ => id).bind fun ws => follows_ofExcept fun vs hvs => ?_
  exact mapM_eq_ok_iff.2 ((mapM_eq_ok_iff.1 hvs).imp fun w v hv => inside_of_follows (hget w.2) hv)

theorem signatureType_of_within (h : c.Within c') {bytes : List UInt8} {t : Ty}
    (ht : signatureType c bytes = .ok t) : signatureType c' bytes = .ok t := by
  unfold signatureType at ht ⊢
  split at ht
  · cases ht
  rename_i hlen
  rw [if_neg hlen]
  simp only at ht ⊢
  split at ht
  · cases ht
  · rw [mapError_eq_ok] at ht ⊢
    exact h.parse ht

theorem follows_get (h : c.Within c') : ∀ {room room' : Nat} (t : Ty), room ≤ room' →
    Follows Source.Eased (get c room t) (get c' room' t)
  | 0, _, _, _ => follows_fail
  | room + 1, room' + 1, t, hle => by
    have ih (t : Ty) := follows_get h t (Nat.le_of_succ_le_succ hle)
    have hinside (t : Ty) {p : Int} {bytes : List UInt8} : Follows Source.Eased
        (Get.ofExcept (inside p bytes (get c room t))) (Get.ofExcept (inside p bytes (get c' room' t))) :=
      follows_ofExcept fun _ => inside_of_follows (ih t)
    refine (follows_pad _).bind fun _ => ?_
    cases t with
    | basic b =>
      simp only [← h.order]
      exact (follows_getScalar c.order b).map
    | array t => exact (follows_getElements _ (ih t)).map
    | struct ts => exact (follows_getMembers ih ts).map
    | entry k t =>
      refine (follows_getMembers ih [.basic k, t]).bind fun vs => ?_
      split <;> exact follows_pure _
    | variant =>
      refine follows_position.bind fun base => follows_readAll.bind fun bytes => ?_
      split
      · exact follows_fail
      refine (follows_ofExcept fun t ht => ?_).bind fun t => (hinside t).map
      rw [mapError_eq_ok] at ht ⊢
      exact signatureType_of_within h ht
    | maybe t =>
      refine follows_position.bind fun base => follows_readAll.bind fun bytes => ?_
      split
      · exact follows_pure _
      split
      · exact (hinside t).map
      split
      · exact follows_fail
      · exact (hinside t).map

end Gvariant

/-! ## Whole values -/

namespace Codec

variable {cap cap' : Option Int}

theorem follows_put (h : c.Within c') (v : Value) : Follows Sink.Eased (c.put v) (c'.put v) := by
  unfold put
  rw [← h.format]
  cases c.format with
  | dbus => exact Dbus.follows_put h v h.room_le
  | gvariant => exact Gvariant.follows_put h v h.room_le

theorem follows_get (h : c.Within c') (t : Ty) : Follows Source.Eased (c.get t) (c'.get t) := by
  unfold get
  rw [← h.format]
  cases c.format with
  | dbus => exact Dbus.follows_get h t h.room_le
  | gvariant => exact Gvariant.follows_get h t h.room_le

theorem decode_of_within (h : c.Within c') (hcap : Cap.Within cap cap') {bytes : List UInt8} {t : Ty} {v : Value}
    (hr : c.decode cap bytes t = .ok v) : c'.decode cap' bytes t = .ok v := by
  rw [decode, Get.run_wrap_bind] at hr ⊢
  exact Get.run_of_follows (follows_get h t) ⟨0, bytes, Cap.eased_new hcap⟩ hr

/-- **Limits are monotone.** What is encoded, or decoded for a type or for the signature of one, is the same under
limits that are all as great or greater. -/
theorem result_of_within (h : c.Within c') (hcap : Cap.Within cap cap') :
    (∀ v b, c.encode cap v = .ok b → c'.encode cap' v = .ok b) ∧
      (∀ bytes t v, c.decode cap bytes t = .ok v → c'.decode cap' bytes t = .ok v) ∧
      ∀ bytes signature v, (do c.decode cap bytes (← c.typeNamed signature)) = .ok v →
        (do c'.decode cap' bytes (← c'.typeNamed signature)) = .ok v := by
  refine ⟨fun v b hr => Put.run_of_follows (follows_put h v) hcap hr, fun bytes t v => decode_of_within h hcap, ?_⟩
  intro bytes signature v hr
  obtain ⟨t, ht, hr⟩ := except_bind_eq_ok.1 hr
  rw [typeNamed, mapError_eq_ok] at ht
  exact except_bind_eq_ok.2 ⟨t, mapError_eq_ok.2 (h.parse ht), decode_of_within h hcap hr⟩

/-- Two bytes in an array, for which the lower limits are just enough. -/
theorem result_of_within_bytes :
    let low : Codec := ⟨.dbus, .little, 1, 2⟩
    let high : Codec := ⟨.dbus, .little, 64, 8⟩
    let v : Value := .array .byte [.scalar (.int .byte 1), .scalar (.int .byte 2)]
    let b : Array UInt8 := #[2, 0, 0, 0, 1, 2]
    let signature : Text := Text.ofString "ay"
    low.Within high ∧ Cap.Within (some 6) none ∧ low.encode (some 6) v = .ok b ∧ high.encode none v = .ok b ∧
      low.decode (some 6) b.toList (.array .byte) = .ok v ∧ high.decode none b.toList (.array .byte) = .ok v ∧
      (do low.decode (some 6) b.toList (← low.typeNamed signature)) = .ok v ∧
      (do high.decode none b.toList (← high.typeNamed signature)) = .ok v := by
  intro low high v b signature
  have hwithin : low.Within high := ⟨rfl, rfl, by decide, by decide⟩
  have hcap : Cap.Within (some 6) none := nofun
  have hencode : low.encode (some 6) v = .ok b := by
    simp only [low, v, b]
    rfl
  have hdecode : low.decode (some 6) b.toList (.array .byte) = .ok v := by
    simp only [low, v, b]
    rfl
  have hnamed : (do low.decode (some 6) b.toList (← low.typeNamed signature)) = .ok v := by
    simp only [low, v, b, signature]
    rfl
  obtain ⟨h1, h2, h3⟩ := result_of_within hwithin hcap
  exact ⟨hwithin, hcap, hencode, h1 v b hencode, hdecode, h2 _ _ v hdecode, hnamed, h3 _ _ v hnamed⟩

end Codec

end Marshal
