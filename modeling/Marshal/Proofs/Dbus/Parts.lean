import Marshal.Proofs.Dbus.Canonical
import Marshal.Proofs.Dbus.Progress
import Marshal.Proofs.Dbus.RoundTrip
import Marshal.Proofs.Parts
/-!
# The parts of a D-Bus value

A D-Bus reader is not told where a value ends. But what it takes for a value it reads in the same way whatever follows
(`finds_reads`), so the bytes that were taken for a part are, without their padding, a run of the bytes of the whole
that decodes to the part alone. Every part takes a byte or more, which is why an array has no more elements than bytes.
-/
namespace Marshal.Dbus

open Get

variable {c : Codec} {room q : Nat} {t : Ty} {v : Value} {bs : List UInt8} {P : Int → List UInt8 → Value → Prop}

/-- **What is taken for a value is read in the same way whatever follows.** -/
theorem finds_reads (hc : c.format = .dbus) (ht : t.isFormed = true) (room q : Nat) :
    Finds (Dbus.get c room t) q fun bs v => v.ty = t ∧ Reads (Dbus.get c room t) q bs v := by
  intro data v s hs
  obtain ⟨bs, rest, rfl, rfl, rfl, cs, hcs, hm⟩ := finds_get c room t q data v s hs
  have hends : Ends none True (Dbus.get c room v.ty) (Value.Conforms v.ty) := ends_get hc room v.ty ht fun _ => trivial
  have hv := (hends.ok (s := ⟨q, bs ++ rest, []⟩) (List.forall_mem_nil _) hs).1
  have hgives := gives_get room hv.isWellFormed hcs hm
  obtain ⟨-, hread⟩ := (hgives rest).ok (outcome_eq_ok.2 hs)
  exact ⟨bs, rest, rfl, rfl, rfl, hgives.reads hread⟩

/-! ## Parts in turn -/

/-- Whether what is taken for a value has the bytes of the value in it. -/
def FindsParts (P : Int → List UInt8 → Value → Prop) (get : Get Value) : Prop :=
  ∀ q : Nat, Finds get q fun bs v => Parts P q bs [v]

theorem finds_parts_getUntil {get : Get Value} (hget : FindsParts P get) (stop : Int) :
    ∀ (n : Nat) (acc : List Value) (q : Nat),
      Finds (getUntil stop get n acc) q fun bs items => ∃ new, items = acc.reverse ++ new ∧ Parts P q bs new
  | 0, acc, q => finds_pure ⟨[], (List.append_nil _).symm, .nil⟩
  | n + 1, acc, q => by
    rw [getUntil]
    refine finds_position ?_
    split
    · refine (hget q).bind fun bs v hv => ?_
      rw [← Nat.cast_add]
      refine (finds_parts_getUntil hget stop n (v :: acc) (q + bs.length)).mono fun ds items h => ?_
      obtain ⟨new, rfl, hnew⟩ := h
      rw [Nat.cast_add] at hnew
      exact ⟨v :: new, by simp, hv.append hnew⟩
    · exact finds_pure ⟨[], (List.append_nil _).symm, .nil⟩

theorem finds_parts_getArray {get : Get Value} (hget : FindsParts P get) (t : Ty) (q : Nat) :
    Finds (getArray c get t) q fun bs items => Parts P q bs items := by
  refine finds_ofExcept_bind fun a _ => (finds_int (by decide : 0 < lengthWidth)).bind fun ls n _ => ?_
  rw [← Nat.cast_add]
  simp only
  split
  · exact finds_fail_bind
  refine finds_pad.bind fun gap _ _ => finds_has fun enough => ?_
  split
  · exact finds_remaining fun _ => finds_fail_bind
  refine finds_position ?_
  rw [← Nat.cast_add]
  refine (finds_parts_getUntil hget _ _ [] _).bind fun es items h => finds_position ?_
  obtain ⟨items, rfl, hitems⟩ := h
  split
  · exact finds_fail_bind
  · refine finds_pure ?_
    rw [Nat.cast_add, Nat.cast_add] at hitems
    rw [List.append_nil]
    exact hitems.behind.behind

theorem finds_parts_getEach {get : Ty → Get Value} : ∀ {ts : List Ty} (q : Nat), (∀ t ∈ ts, FindsParts P (get t)) →
    Finds (getEach get ts) q fun bs members => Parts P q bs members
  | [], q, _ => finds_pure .nil
  | t :: ts, q, hget => by
    obtain ⟨h1, h2⟩ := List.forall_mem_cons.1 hget
    refine (h1 q).bind fun bs v hv => ?_
    rw [← Nat.cast_add]
    refine (finds_parts_getEach _ h2).map fun ds members h => ?_
    rw [Nat.cast_add] at h
    exact hv.append h

/-- The key of a dict entry is read as any value of its type. -/
theorem get_basic (c : Codec) (k : Basic) : ∀ room : Nat,
    Dbus.get c room (.basic k) = (do return .scalar (← getKey c room k))
  | 0 => rfl
  | room + 1 => by
    rw [getKey, if_neg (Nat.succ_ne_zero room)]
    simp only [bind_assoc]
    rfl

theorem finds_parts_getKey {k : Basic} (hget : FindsParts P (Dbus.get c room (.basic k))) (q : Nat) :
    Finds (getKey c room k) q fun bs s => Parts P q bs [.scalar s] := by
  intro data s s' hs
  refine hget q data (.scalar s) s' ?_
  rw [get_basic]
  exact bind_eq_ok.2 ⟨s, s', hs, rfl⟩

/-- The children of a value that was read have runs of its bytes. -/
theorem finds_parts_children (ht : t.isFormed = true)
    (hget : ∀ t : Ty, t.isFormed = true → FindsParts P (Dbus.get c room t)) (q : Nat) :
    Finds (Dbus.get c (room + 1) t) q fun bs v => Parts P q bs v.children := by
  refine finds_ofExcept_bind fun a _ => finds_pad.bind fun gap _ _ => ?_
  rw [← Nat.cast_add]
  -- it is enough to find them behind the padding
  suffices hcontent : ∀ {get : Get Value}, Finds get (q + gap.length : Nat) (fun bs v =>
      Parts P (q + gap.length : Nat) bs v.children) →
        Finds get (q + gap.length : Nat) fun bs v => Parts P q (gap ++ bs) v.children by
    apply hcontent
    cases t with
    | basic b => exact (finds_getScalar c.order b).map fun bs s _ => .nil
    | array t =>
      simp only [Ty.isFormed, Bool.and_eq_true] at ht
      exact (finds_parts_getArray (hget t ht.1) t _).map fun bs items h => h
    | struct ts =>
      simp only [Ty.isFormed, Bool.and_eq_true, Ty.areMembers_iff] at ht
      exact (finds_parts_getEach _ fun t hmem => hget t (ht.1.2 t hmem).1).map fun bs members h => h
    | entry k t =>
      simp only [Ty.isFormed, Bool.and_eq_true] at ht
      refine (finds_parts_getKey (hget (.basic k) rfl) _).bind fun bs s hs => ?_
      rw [← Nat.cast_add]
      refine (hget t ht.1.1 _).map fun ds w hw => ?_
      rw [Nat.cast_add] at hw
      exact hs.append hw
    | variant =>
      refine (finds_signature true none).bind fun bs s _ => ?_
      cases hp : Signature.parse c.reading (Text.ofString s) with
      | error e => exact finds_fail
      | ok t =>
        rw [← Nat.cast_add]
        refine (hget t (Signature.parse_eq_ok_iff.1 hp).2.2.isFormed _).map fun ds w hw => ?_
        rw [Nat.cast_add] at hw
        exact hw.behind
    | maybe t => exact finds_throw
  intro get h
  refine h.mono fun bs v hv => ?_
  rw [Nat.cast_add] at hv
  exact hv.behind

/-! ## Without padding -/

/-- Padding is skipped before anything else, so the same is read behind it. -/
theorem exists_padding {data : List UInt8} {s : Source} : ∀ {room : Nat},
    Dbus.get c room t ⟨q, data, []⟩ = .ok v s → ∃ gap rest, data = gap ++ rest ∧
      (∀ a ∈ t.dbusAlignment?, (a : Int) ∣ q + gap.length) ∧ Dbus.get c room t ⟨q + gap.length, rest, []⟩ = .ok v s
  | room + 1, h => by
    cases ha : t.dbusAlignment? with
    | none =>
      unfold Dbus.get at h
      rw [alignment, ha] at h
      cases h
    | some a =>
      obtain ⟨content, hget⟩ : ∃ content : Get Value, Dbus.get c (room + 1) t = (do pad a; content) := by
        unfold Dbus.get
        rw [alignment, ha]
        exact ⟨_, rfl⟩
      rw [hget] at h ⊢
      obtain ⟨_, s₁, hpad, hcontent⟩ := bind_eq_ok.1 h
      obtain ⟨gap, rest, rfl, rfl, hgap⟩ := finds_pad data () s₁ hpad
      have hdvd : (a : Int) ∣ q + gap.length := by
        rw [hgap]
        exact dvd_add_padTo q (pos_of_dvd_eight (Ty.dbusAlignment?_dvd_eight ha))
      refine ⟨gap, rest, rfl, ?_, (pad_bind_apply hdvd).trans hcontent⟩
      rintro _ ⟨⟩
      exact hdvd

theorem findsParts_get (hc : c.format = .dbus) (ht : t.isFormed = true)
    (hP : ∀ (q : Nat) (bs : List UInt8) (v : Value), v.ty = t → (∀ a ∈ t.dbusAlignment?, (a : Int) ∣ q) →
      run (Dbus.get c room t) ⟨q, bs, []⟩ = .ok v → P q bs v) : FindsParts P (Dbus.get c room t) := by
  intro q data v s hs
  obtain ⟨gap, rest, rfl, hdvd, hget⟩ := exists_padding hs
  rw [← Nat.cast_add] at hdvd hget
  obtain ⟨bs, last, rfl, rfl, hty, hreads⟩ := finds_reads hc ht room _ rest v s hget
  refine ⟨gap ++ bs, last, (List.append_assoc ..).symm, ?_, ?_⟩
  · rw [List.length_append, Nat.cast_add, Nat.cast_add, add_assoc]
  · have hv := hP _ bs v hty hdvd hreads.takes.run
    rw [Nat.cast_add] at hv
    exact (Parts.whole hv).behind

/-- **Every part of a D-Bus value has bytes of its own**, at least one, and an array has no more elements than that. -/
theorem unamplified_of_run (hc : c.format = .dbus) : ∀ {room : Nat} {t : Ty}, t.isFormed = true →
    ∀ (q : Nat) (bs : List UInt8) (v : Value), v.ty = t → (∀ a ∈ t.dbusAlignment?, (a : Int) ∣ q) →
      run (Dbus.get c room t) ⟨q, bs, []⟩ = .ok v → c.Unamplified room q bs v ∧ bs ≠ []
  | 0, t, _, q, bs, v, _, _, h => by cases h
  | room + 1, t, ht, q, bs, v, hty, hdvd, h => by
    subst hty
    have hparts := (finds_parts_children (P := fun p bs v => c.Unamplified room p bs v ∧ bs ≠ []) ht
      (fun t ht => findsParts_get hc ht (unamplified_of_run hc ht)) q).of_run h
    have hencodes : c.Encodes (room + 1) q bs v := by
      constructor
      · rw [Codec.alignment?, hc]
        exact hdvd
      · rw [Codec.getIn, hc]
        exact h
    refine ⟨⟨hencodes, ?_, hparts.mono And.left⟩, ?_⟩
    · rintro t items rfl
      exact hparts.length_le And.right
    · obtain ⟨s, hs, hrest⟩ := run_eq_ok.1 h
      obtain ⟨taken, htaken, -, hpos⟩ := advances_get c (room + 1) ht hs
      rw [hrest, List.append_nil] at htaken
      rintro rfl
      rw [← htaken] at hpos
      exact absurd hpos (Nat.not_succ_le_zero 0)

end Marshal.Dbus
