import Marshal.Proofs.Dbus.Outcome
import Marshal.Proofs.Metering
/-!
# D-Bus readers go forward

A reader that succeeds has taken bytes from the front and nothing else has moved its source, whatever caps are put on
it: `Get.Advances` says so, and how many bytes they are at least. Every D-Bus value takes one or more, since structs are
not empty and a variant has its signature. So a loop that reads elements up to a position, which has no measure of its
own, ends after no more iterations than there are bytes up to there (`exists_loops`).
-/
namespace Marshal

namespace Get

variable {α β : Type} {get : Get α} {next : α → Get β} {m n : Nat}

/-- Whether a reader that succeeds has taken bytes from the front, `n` of them at least. -/
def Advances (n : Nat) (get : Get α) : Prop := ∀ ⦃s a s'⦄, get s = .ok a s' →
  ∃ bs, s.rest = bs ++ s'.rest ∧ s'.position = s.position + bs.length ∧ n ≤ bs.length

theorem Advances.mono (h : Advances m get) (hle : n ≤ m) : Advances n get := by
  intro s a s' hr
  obtain ⟨bs, hrest, hposition, hlen⟩ := h hr
  exact ⟨bs, hrest, hposition, hle.trans hlen⟩

theorem Advances.zero (h : Advances n get) : Advances 0 get := h.mono (Nat.zero_le n)

theorem Advances.bind (h : Advances m get) (hn : ∀ a, Advances n (next a)) : Advances (m + n) (get >>= next) := by
  intro s b s' hr
  obtain ⟨a, s₁, h1, h2⟩ := bind_eq_ok.1 hr
  obtain ⟨bs, hrest, hposition, hlen⟩ := h h1
  obtain ⟨ds, hrest', hposition', hlen'⟩ := hn a h2
  refine ⟨bs ++ ds, by rw [hrest, hrest', List.append_assoc], ?_, ?_⟩
  · rw [hposition', hposition, List.length_append, Nat.cast_add, add_assoc]
  · rw [List.length_append]
    omega

/-- What comes behind a reader does not have to take any bytes. -/
theorem Advances.before (h : Advances n get) (hn : ∀ a, Advances 0 (next a)) : Advances n (get >>= next) := h.bind hn

/-- What comes before a reader does not have to take any bytes. -/
theorem Advances.behind (h : Advances 0 get) (hn : ∀ a, Advances n (next a)) : Advances n (get >>= next) :=
  (h.bind hn).mono (Nat.zero_add n).ge

theorem advances_still (h : ∀ {s a s'}, get s = .ok a s' → s'.rest = s.rest ∧ s'.position = s.position) :
    Advances 0 get := by
  intro s a s' hr
  obtain ⟨hrest, hposition⟩ := h hr
  exact ⟨[], hrest.symm, by rw [hposition, List.length_nil, Nat.cast_zero, add_zero], le_rfl⟩

theorem advances_pure (a : α) : Advances 0 (pure a) := advances_still fun hr => by cases hr; exact ⟨rfl, rfl⟩

theorem Advances.map {f : α → β} (h : Advances n get) : Advances n (get >>= fun a => pure (f a)) :=
  h.before fun a => advances_pure (f a)

theorem advances_throw (e : Error) : Advances n (throw e : Get α) := nofun

theorem advances_fail (d : DecodeError) : Advances n (fail d : Get α) := advances_throw _

theorem advances_fail_bind (d : DecodeError) : Advances n ((fail d : Get α) >>= next) := advances_throw _

theorem advances_ofExcept (r : Except Error α) : Advances 0 (ofExcept r) := by
  cases r with
  | error e => exact advances_throw e
  | ok a => exact advances_pure a

theorem advances_position : Advances 0 position := advances_still fun hr => by cases hr; exact ⟨rfl, rfl⟩

theorem advances_remaining : Advances 0 remaining := advances_still fun hr => by cases hr; exact ⟨rfl, rfl⟩

theorem advances_has (n : Nat) : Advances 0 (has n) := advances_still fun hr => by cases hr; exact ⟨rfl, rfl⟩

theorem advances_charge (n : Int) : Advances 0 (charge n) := by
  refine advances_still ?_
  rintro ⟨p, rest, caps⟩ a s' hr
  rw [charge] at hr
  split at hr <;> cases hr
  exact ⟨rfl, rfl⟩

theorem advances_readByte : Advances 1 readByte := by
  refine (advances_charge 1).behind fun _ => ?_
  rintro ⟨p, _ | ⟨b, rest⟩, caps⟩ a s' hr <;> cases hr
  exact ⟨[b], rfl, rfl, le_rfl⟩

theorem advances_readBytes (n : Int) : Advances n.toNat (readBytes n true) := by
  refine (advances_charge n).behind fun _ => ?_
  rintro ⟨p, rest, caps⟩ a s' hr
  rw [takeBytes_apply] at hr
  split_ifs at hr with hneg hlt
  cases hr
  have hlen : (rest.take n.toNat).length = n.toNat := by
    rw [List.length_take]
    omega
  refine ⟨rest.take n.toNat, (List.take_append_drop ..).symm, ?_, hlen.ge⟩
  rw [hlen, Int.toNat_of_nonneg (not_lt.1 hneg)]

theorem advances_pad (a : Nat) : Advances 0 (pad a) := by
  refine advances_position.behind fun p => ?_
  simp only
  split
  · exact advances_pure ()
  · exact (advances_readBytes _).zero.map

/-! ### Scalars -/

theorem advances_int (f : Integer.Format) : Advances f.width (int f) := (advances_readBytes f.width).map

theorem advances_boolean (w : Nat) (o : ByteOrder) : Advances w (boolean w o) := by
  refine (advances_int _).before fun n => ?_
  split
  · exact advances_pure _
  split
  · exact advances_pure _
  · exact advances_fail _

/-- A text behind its length takes at least the bytes of the length. -/
theorem advances_string {w : Nat} (hw : w ≠ 0) (o : ByteOrder) : Advances w (string w o) := by
  refine Advances.map ?_
  unfold chars
  simp only [if_neg hw]
  refine (advances_int ⟨w, false, o⟩).before fun n => ?_
  refine (advances_readBytes n).zero.behind fun bs => advances_readByte.zero.behind fun b => ?_
  split
  · exact advances_fail_bind _
  · exact advances_ofExcept _

theorem advances_objectPath {w : Nat} (hw : w ≠ 0) (o : ByteOrder) : Advances w (objectPath w o) := by
  refine (advances_string hw o).before fun s => ?_
  split
  · exact advances_pure s
  · exact advances_fail _

theorem advances_signature (format : Option WireFormat) : Advances 1 (signature true format) := by
  refine advances_remaining.behind fun n => ?_
  simp only [Bool.not_true, Bool.false_and, Bool.false_eq_true, if_false]
  refine (advances_string one_ne_zero .little).before fun s => ?_
  cases Signature.parseAll { format } (Text.ofString s) with
  | ok ts => exact advances_pure s
  | error e => exact advances_fail _

end Get

namespace Dbus

open Get

variable {c : Codec}

theorem advances_getScalar (o : ByteOrder) : ∀ b : Basic, Advances 1 (getScalar o b)
  | .int k => ((advances_int _).mono (pos_of_dvd_eight k.width_dvd_eight)).map
  | .boolean => ((advances_boolean _ o).mono (by decide)).map
  | .double => ((advances_readBytes 8).mono (by decide)).map.map
  | .text .string => ((advances_string (by decide) o).mono (by decide)).map
  | .text .objectPath => ((advances_objectPath (by decide) o).mono (by decide)).map
  | .text .signature => (advances_signature _).map

theorem advances_getUntil {get : Get Value} (h : Advances 0 get) (stop : Int) : ∀ (n : Nat) (items : List Value),
    Advances 0 (getUntil stop get n items)
  | 0, items => advances_pure _
  | n + 1, items => by
    rw [getUntil]
    refine advances_position.behind fun p => ?_
    split
    · exact h.behind fun v => advances_getUntil h stop n (v :: items)
    · exact advances_pure _

/-- An array takes the bytes of its length, even when it has no elements. -/
theorem advances_getArray {get : Get Value} (h : Advances 0 get) (t : Ty) : Advances 1 (getArray c get t) := by
  refine (advances_ofExcept _).behind fun a => ?_
  refine ((advances_int (lengthFormat c.order)).mono (by decide : 1 ≤ lengthWidth)).before fun length => ?_
  simp only
  split
  · exact advances_fail_bind _
  refine (advances_pad a).behind fun _ => (advances_has _).behind fun enough => ?_
  split
  · exact advances_remaining.behind fun _ => advances_fail_bind _
  refine advances_position.behind fun start => (advances_getUntil h _ _ []).behind fun items => ?_
  refine advances_position.behind fun p => ?_
  split
  · exact advances_fail_bind _
  · exact advances_pure items

theorem advances_getEach {get : Ty → Get Value} : ∀ {ts : List Ty}, (∀ t ∈ ts, Advances 0 (get t)) →
    Advances 0 (getEach get ts)
  | [], _ => advances_pure []
  | _ :: _, h => by
    obtain ⟨h1, h2⟩ := List.forall_mem_cons.1 h
    exact h1.behind fun v => (advances_getEach h2).map

theorem advances_getKey (room : Nat) (k : Basic) : Advances 1 (getKey c room k) := by
  unfold getKey
  split
  · exact advances_fail_bind _
  · exact (advances_pad _).behind fun _ => advances_getScalar c.order k

/-- **Every D-Bus value takes a byte or more.** -/
theorem advances_get (c : Codec) : ∀ (room : Nat) {t : Ty}, t.isFormed = true → Advances 1 (Dbus.get c room t)
  | 0, _, _ => advances_fail _
  | room + 1, t, ht => by
    have ih {t : Ty} (ht : t.isFormed = true) := advances_get c room ht
    refine (advances_ofExcept _).behind fun a => (advances_pad a).behind fun _ => ?_
    cases t with
    | basic b => exact (advances_getScalar c.order b).map
    | array t =>
      simp only [Ty.isFormed, Bool.and_eq_true] at ht
      exact (advances_getArray (ih ht.1).zero t).map
    | struct ts =>
      simp only [Ty.isFormed, Bool.and_eq_true, Ty.areMembers_iff] at ht
      cases ts with
      | nil => simp at ht
      | cons t ts =>
        obtain ⟨h1, h2⟩ := List.forall_mem_cons.1 fun u hu => ih (ht.1.2 u hu).1
        exact (h1.before fun v => (advances_getEach fun u hu => (h2 u hu).zero).map).map
    | entry k t =>
      simp only [Ty.isFormed, Bool.and_eq_true] at ht
      exact (advances_getKey room k).before fun s => (ih ht.1.1).zero.map
    | variant =>
      refine (advances_signature none).before fun s => ?_
      cases hp : Signature.parse c.reading (Text.ofString s) with
      | error e => exact advances_fail _
      | ok t => exact (ih (Signature.parse_eq_ok_iff.1 hp).2.2.isFormed).zero.map
    | maybe t => exact advances_throw _

/-! ## The loop over elements -/

/-- How a loop that reads items up to a position ends, after a number of iterations, from a source and the items before.
Nothing bounds the iterations. -/
inductive Loops (stop : Int) (get : Get Value) :
    List Value → Source → Nat → EStateM.Result Error Source (List Value) → Prop
  | done {items : List Value} {s : Source} (h : stop ≤ s.position) : Loops stop get items s 0 (.ok items.reverse s)
  | failed {items : List Value} {s s' : Source} {e : Error} (h : s.position < stop) (hr : get s = .error e s') :
      Loops stop get items s 1 (.error e s')
  | again {items : List Value} {s s' : Source} {v : Value} {n : Nat} {r : EStateM.Result Error Source (List Value)}
      (h : s.position < stop) (hr : get s = .ok v s') (hnext : Loops stop get (v :: items) s' n r) :
      Loops stop get items s (n + 1) r

/-- A loop ends in one way only. -/
theorem Loops.unique {stop : Int} {get : Get Value} {items : List Value} {s : Source} {m n : Nat}
    {r r' : EStateM.Result Error Source (List Value)} (h : Loops stop get items s m r)
    (h' : Loops stop get items s n r') : m = n ∧ r = r' := by
  induction h generalizing n with
  | done h =>
    cases h' with
    | done _ => exact ⟨rfl, rfl⟩
    | failed hlt _ | again hlt _ _ => exact absurd hlt (not_lt.2 h)
  | failed h hr =>
    cases h' with
    | done hle => exact absurd h (not_lt.2 hle)
    | failed _ hr' =>
      cases hr.symm.trans hr'
      exact ⟨rfl, rfl⟩
    | again _ hr' _ => cases hr.symm.trans hr'
  | again h hr _ ih =>
    cases h' with
    | done hle => exact absurd h (not_lt.2 hle)
    | failed _ hr' => cases hr.symm.trans hr'
    | again _ hr' hnext' =>
      cases hr.symm.trans hr'
      obtain ⟨rfl, rfl⟩ := ih hnext'
      exact ⟨rfl, rfl⟩

/-- **The loop ends after no more iterations than there are bytes up to where it stops**, since each takes one at least.
It gives what it gives when only so many iterations are allowed. -/
theorem exists_loops {get : Get Value} (hget : Advances 1 get) {stop : Int} : ∀ {n : Nat} {s : Source}
    (items : List Value), stop ≤ s.position + n →
      ∃ m ≤ n, Loops stop get items s m (getUntil stop get n items s)
  | 0, s, items, h => ⟨0, le_rfl, .done (h.trans (add_zero s.position).le)⟩
  | n + 1, s, items, h => by
    have hunfold : getUntil stop get (n + 1) items s =
        (if s.position < stop then (do getUntil stop get n ((← get) :: items)) else pure items.reverse : Get _) s := rfl
    rw [hunfold]
    by_cases hlt : s.position < stop
    · rw [if_pos hlt]
      cases hr : get s with
      | error e s' =>
        have hfails : (do getUntil stop get n ((← get) :: items) : Get _) s = .error e s' := bind_eq_error.2 (.inl hr)
        rw [hfails]
        exact ⟨1, by omega, .failed hlt hr⟩
      | ok v s' =>
        have hgoes : (do getUntil stop get n ((← get) :: items) : Get _) s = getUntil stop get n (v :: items) s' := by
          change EStateM.bind get _ s = _
          rw [EStateM.bind, hr]
        obtain ⟨bs, -, hposition, hpos⟩ := hget hr
        obtain ⟨m, hm, hloop⟩ := exists_loops hget (v :: items) (by omega : stop ≤ s'.position + n)
        rw [hgoes]
        exact ⟨m + 1, Nat.succ_le_succ hm, .again hlt hr hloop⟩
    · rw [if_neg hlt]
      exact ⟨0, Nat.zero_le _, .done (not_lt.1 hlt)⟩

end Dbus

end Marshal
