import Marshal.Proofs.Dbus.RoundTrip
/-!
# D-Bus input that ends too early

A D-Bus reader reads from front to back and never looks at the end of its input, but for whether the bytes that it is
about to read are there. So input that is cut off is read in the same way up to where a byte is missing, and there it is
refused for that and nothing else: `Get.Streams`. The one check that looks ahead is that of an array's length, which is
made before the elements and refuses for the same reason.
-/
namespace Marshal

namespace Get

variable {α β : Type} {get : Get α} {next : α → Get β}

/-- Whether a reader that succeeds does the same when more follows, and one that fails does too, unless bytes are
missing. -/
structure Streams (get : Get α) : Prop where
  ok {p : Int} {data : List UInt8} {s : Source} {a : α} : get ⟨p, data, []⟩ = .ok a s →
    s.caps = [] ∧ ∀ more, get ⟨p, data ++ more, []⟩ = .ok a ⟨s.position, s.rest ++ more, []⟩
  error {p : Int} {data : List UInt8} {s : Source} {e : Error} : get ⟨p, data, []⟩ = .error e s →
    e.kind = .decode .underrun ∨ ∀ more, ∃ s', get ⟨p, data ++ more, []⟩ = .error e s'

theorem streams_pure (a : α) : Streams (pure a) where
  ok h := by
    cases h
    exact ⟨rfl, fun _ => rfl⟩
  error h := by cases h

theorem streams_throw (e : Error) : Streams (throw e : Get α) where
  ok h := by cases h
  error h := by
    cases h
    exact .inr fun _ => ⟨_, rfl⟩

theorem streams_fail (e : DecodeError) : Streams (fail e : Get α) := streams_throw _

theorem streams_fail_bind (e : DecodeError) : Streams ((fail e : Get α) >>= next) := streams_throw _

theorem streams_ofExcept (r : Except Error α) : Streams (ofExcept r) := by
  cases r with
  | error e => exact streams_throw e
  | ok a => exact streams_pure a

theorem Streams.bind (h : Streams get) (hn : ∀ a, Streams (next a)) : Streams (get >>= next) where
  ok hr := by
    obtain ⟨a, ⟨p', rest, caps⟩, h1, h2⟩ := bind_eq_ok.1 hr
    obtain ⟨rfl, hmore⟩ := h.ok h1
    obtain ⟨hcaps, hmore'⟩ := (hn a).ok h2
    exact ⟨hcaps, fun more => bind_eq_ok.2 ⟨a, _, hmore more, hmore' more⟩⟩
  error hr := by
    rcases bind_eq_error.1 hr with h1 | ⟨a, ⟨p', rest, caps⟩, h1, h2⟩
    · refine (h.error h1).imp_right fun hmore more => ?_
      obtain ⟨s', h2⟩ := hmore more
      exact ⟨s', bind_eq_error.2 (.inl h2)⟩
    · obtain ⟨rfl, hmore⟩ := h.ok h1
      refine ((hn a).error h2).imp_right fun hmore' more => ?_
      obtain ⟨s', h3⟩ := hmore' more
      exact ⟨s', bind_eq_error.2 (.inr ⟨a, _, hmore more, h3⟩)⟩

theorem Streams.map {f : α → β} (h : Streams get) : Streams (get >>= fun a => pure (f a)) :=
  h.bind fun a => streams_pure (f a)

/-- The position does not depend on what follows. -/
theorem streams_position {next : Int → Get β} (h : ∀ p, Streams (next p)) : Streams (position >>= next) where
  ok hr := (h _).ok hr
  error hr := (h _).error hr

/-- A reader may look whether bytes are there if it fails for want of them when they are not. -/
theorem streams_has {n : Nat} {next : Bool → Get β} (h : Streams (next true))
    (hn : ∀ s, ∃ e s', next false s = .error e s' ∧ e.kind = .decode .underrun) : Streams (has n >>= next) := by
  have hrun (p : Int) (data : List UInt8) :
      (has n >>= next) ⟨p, data, []⟩ = next ((data.take n).length == n) ⟨p, data, []⟩ := rfl
  have hmore {data : List UInt8} (ht : ((data.take n).length == n) = true) (more : List UInt8) :
      (((data ++ more).take n).length == n) = true := by
    rw [beq_iff_eq, List.length_take] at ht ⊢
    rw [List.length_append]
    omega
  constructor
  · intro p data s a hr
    rw [hrun] at hr
    cases ht : (data.take n).length == n with
    | true =>
      rw [ht] at hr
      obtain ⟨hcaps, hnext⟩ := h.ok hr
      exact ⟨hcaps, fun more => by rw [hrun, hmore ht, hnext]⟩
    | false =>
      obtain ⟨e, s', he, -⟩ := hn ⟨p, data, []⟩
      rw [ht, he] at hr
      cases hr
  · intro p data s e hr
    rw [hrun] at hr
    cases ht : (data.take n).length == n with
    | true =>
      rw [ht] at hr
      exact (h.error hr).imp_right fun hnext more => by rw [hrun, hmore ht]; exact hnext more
    | false =>
      obtain ⟨e', s', he, hk⟩ := hn ⟨p, data, []⟩
      rw [ht, he] at hr
      cases hr
      exact .inl hk

/-- Bytes that are there are taken; that some are missing is the only other thing that what follows can change. -/
theorem streams_readBytes (n : Int) : Streams (readBytes n true) where
  ok {p data s a} hr := by
    obtain ⟨h0, hle, rfl, rfl⟩ := readBytes_eq_ok.1 hr
    refine ⟨rfl, fun more => readBytes_eq_ok.2 ⟨h0, ?_, ?_, ?_⟩⟩
    · rw [List.length_append]
      omega
    · rw [List.take_append_of_le_length (by omega)]
    · rw [List.drop_append_of_le_length (by omega)]
  error {p data s e} hr := by
    rw [readBytes_apply, takeBytes_apply] at hr
    split at hr
    · rename_i hneg
      cases hr
      exact .inr fun more => ⟨_, by rw [readBytes_apply, takeBytes_apply, if_pos hneg]⟩
    split at hr
    · cases hr
      exact .inl rfl
    · cases hr

theorem streams_readByte : Streams readByte where
  ok {p data s a} hr := by
    cases data with
    | nil => cases hr
    | cons b data =>
      cases hr
      exact ⟨rfl, fun _ => rfl⟩
  error {p data s e} hr := by
    cases data with
    | nil =>
      cases hr
      exact .inl rfl
    | cons b data => cases hr

theorem streams_pad (a : Nat) : Streams (pad a) := by
  refine streams_position fun p => ?_
  simp only
  split
  · exact streams_pure ()
  · exact (streams_readBytes _).map

/-! ### Scalars -/

theorem streams_int (f : Integer.Format) : Streams (int f) := (streams_readBytes _).map

theorem streams_boolean (w : Nat) (o : ByteOrder) : Streams (boolean w o) := by
  refine (streams_int _).bind fun n => ?_
  split
  · exact streams_pure _
  split
  · exact streams_pure _
  · exact streams_fail _

theorem streams_chars {w : Nat} (hw : 0 < w) (o : ByteOrder) : Streams (chars w o) := by
  unfold chars
  simp only [if_neg hw.ne']
  refine (streams_int _).bind fun n => (streams_readBytes n).bind fun bs => streams_readByte.bind fun b => ?_
  split
  · exact streams_fail_bind _
  · exact streams_ofExcept _

theorem streams_string {w : Nat} (hw : 0 < w) (o : ByteOrder) : Streams (string w o) := (streams_chars hw o).map

theorem streams_objectPath {w : Nat} (hw : 0 < w) (o : ByteOrder) : Streams (objectPath w o) := by
  refine (streams_string hw o).bind fun s => ?_
  split
  · exact streams_pure s
  · exact streams_fail _

/-- A signature that stands behind its length. -/
theorem streams_signature (format : Option WireFormat) : Streams (signature true format) := by
  have hwithin : Streams (signatureWithin 1 format) := by
    refine (streams_string Nat.one_pos .little).bind fun s => ?_
    cases Signature.parseAll { format } (Text.ofString s) with
    | ok ts => exact streams_pure s
    | error e => exact streams_fail _
  have heq : signature true format = signatureWithin 1 format := funext fun s => signature_apply true format s
  rwa [heq]

end Get

namespace Dbus

open Get

variable {c : Codec}

theorem streams_getScalar (o : ByteOrder) : ∀ b : Basic, Streams (getScalar o b)
  | .int _ => (streams_int _).map
  | .boolean => (streams_boolean _ o).map
  | .double => (streams_readBytes _).map.map
  | .text .string => (streams_string (by decide) o).map
  | .text .objectPath => (streams_objectPath (by decide) o).map
  | .text .signature => (streams_signature _).map

theorem streams_getUntil {get : Get Value} (h : Streams get) (stop : Int) : ∀ (n : Nat) (items : List Value),
    Streams (getUntil stop get n items)
  | 0, items => streams_pure _
  | n + 1, items => by
    rw [getUntil]
    refine streams_position fun p => ?_
    split
    · exact h.bind fun v => streams_getUntil h stop n (v :: items)
    · exact streams_pure _

/-- The length of an array is held against the bytes that are left before an element is read. -/
theorem streams_getArray {get : Get Value} (h : Streams get) (t : Ty) : Streams (getArray c get t) := by
  refine (streams_ofExcept _).bind fun a => (streams_int _).bind fun length => ?_
  simp only
  split
  · exact streams_fail_bind _
  refine (streams_pad a).bind fun _ => streams_has ?_ fun s => ⟨_, _, rfl, rfl⟩
  refine streams_position fun start => (streams_getUntil h _ _ []).bind fun items => streams_position fun p => ?_
  split
  · exact streams_fail_bind _
  · exact streams_pure items

theorem streams_getEach {get : Ty → Get Value} (h : ∀ t, Streams (get t)) (ts : List Ty) :
    Streams (getEach get ts) := by
  induction ts with
  | nil => exact streams_pure []
  | cons t ts ih => exact (h t).bind fun _ => ih.map

theorem streams_getKey (room : Nat) (k : Basic) : Streams (getKey c room k) := by
  unfold getKey
  split
  · exact streams_fail_bind _
  · exact (streams_pad _).bind fun _ => streams_getScalar c.order k

/-- **A D-Bus value is read from front to back.** -/
theorem streams_get (c : Codec) : ∀ (room : Nat) (t : Ty), Streams (get c room t)
  | 0, _ => streams_fail _
  | room + 1, t => by
    refine (streams_ofExcept _).bind fun a => (streams_pad a).bind fun _ => ?_
    cases t with
    | basic b => exact (streams_getScalar c.order b).map
    | array t => exact (streams_getArray (streams_get c room t) t).map
    | struct ts => exact (streams_getEach (streams_get c room) ts).map
    | entry k t => exact (streams_getKey room k).bind fun _ => (streams_get c room t).map
    | variant =>
      refine (streams_signature none).bind fun s => ?_
      cases Signature.parse c.reading (Text.ofString s) with
      | error e => exact streams_fail _
      | ok t => exact (streams_get c room t).map
    | maybe t => exact streams_throw _

/-! ## Input of another length -/

/-- The bytes of a message that is read back, one by one from the front. -/
theorem underrun_of_streams {get : Get Value} (h : Streams get) {bs : List UInt8} {v : Value}
    (hr : Reads get 0 bs v) {n : Nat} (hn : n < bs.length) :
    ∃ e, Get.run get ⟨0, bs.take n, []⟩ = .error e ∧ e.kind = .decode .underrun := by
  have hall := hr []
  rw [List.append_nil] at hall
  cases hcut : get ⟨0, bs.take n, []⟩ with
  | ok a s =>
    have hmore := (h.ok hcut).2 (bs.drop n)
    rw [List.take_append_drop, hall] at hmore
    simp only [EStateM.Result.ok.injEq, Source.mk.injEq, List.nil_eq_append_iff, List.drop_eq_nil_iff] at hmore
    omega
  | error e s =>
    refine ⟨e, run_eq_error hcut, (h.error hcut).resolve_right fun hmore => ?_⟩
    obtain ⟨s', hmore⟩ := hmore (bs.drop n)
    rw [List.take_append_drop, hall] at hmore
    cases hmore

theorem trailing_of_reads {get : Get Value} {bs extra : List UInt8} {v : Value} (hr : Reads get 0 bs v)
    (hne : extra ≠ []) : Get.run get ⟨0, bs ++ extra, []⟩ = .error (.decode (.trailing extra.length)) := by
  have hleft (s : Source) (hs : s.rest = extra) : finish s = .error (.decode (.trailing extra.length)) s := by
    rw [finish, hs, if_neg (by simpa using hne)]
  have hwhole : (do let v ← get; finish; return v : Get Value) ⟨0, bs ++ extra, []⟩ = .error _ _ :=
    bind_eq_error.2 (.inr ⟨v, _, hr extra, bind_eq_error.2 (.inl (hleft _ rfl))⟩)
  rw [Get.run, hwhole]

/-- **A message that is cut off is refused because bytes are missing, and one that goes on because some are left.** -/
theorem decode_of_other_length {c : Codec} {v : Value} {b : Array UInt8} (hc : c.format = .dbus)
    (hv : v.isWellFormed = true) (hm : ∀ t ∈ v.heldTypes, t.mentionsMaybe = false)
    (hn : ∀ t ∈ v.heldTypes, (t.nesting : Int) ≤ c.maxDepth) (h : c.encode none v = .ok b) :
    (∀ n < b.size, ∃ e, c.decode none (b.toList.take n) v.ty = .error e ∧ e.kind = .decode .underrun) ∧
      ∀ extra ≠ [], c.decode none (b.toList ++ extra) v.ty = .error (.decode (.trailing extra.length)) := by
  rw [encode_eq hc] at h
  obtain ⟨cs, hcs, rfl⟩ := except_map_eq_ok.1 h
  have hread := reads_get c.room hv (fun t ht => ⟨hm t ht, hn t ht⟩) hcs (Cell.matches_render cs)
  refine ⟨fun n hlt => ?_, fun extra hne => ?_⟩
  · rw [decode_eq hc]
    exact underrun_of_streams (streams_get c c.room v.ty) hread (by simpa using hlt)
  · rw [decode_eq hc]
    exact trailing_of_reads hread hne

/-- A structure whose array is cut off behind its length, and one with a byte too many. -/
theorem decode_of_other_length_struct :
    let c : Codec := ⟨.dbus, .little, 64, 1024⟩
    let v : Value := .struct [.variant (.scalar (.int .byte 7)), .array (.basic (.int .byte)) [.scalar (.int .byte 9)]]
    c.format = .dbus ∧ v.isWellFormed = true ∧ (∀ t ∈ v.heldTypes, t.mentionsMaybe = false) ∧
      (∀ t ∈ v.heldTypes, (t.nesting : Int) ≤ c.maxDepth) ∧ c.encode none v = .ok #[1, 121, 0, 7, 1, 0, 0, 0, 9] ∧
      (∃ e, c.decode none [1, 121, 0, 7, 1, 0, 0, 0] v.ty = .error e ∧ e.kind = .decode .underrun) ∧
        c.decode none [1, 121, 0, 7, 1, 0, 0, 0, 9, 5] v.ty = .error (.decode (.trailing 1)) := by
  intro c v
  have hv : v.isWellFormed = true := by decide
  have hm : ∀ t ∈ v.heldTypes, t.mentionsMaybe = false := by decide
  have hn : ∀ t ∈ v.heldTypes, (t.nesting : Int) ≤ c.maxDepth := by decide
  have h : c.encode none v = .ok #[1, 121, 0, 7, 1, 0, 0, 0, 9] := by
    simp only [c, v]
    rfl
  obtain ⟨hcut, hlong⟩ := decode_of_other_length rfl hv hm hn h
  exact ⟨rfl, hv, hm, hn, h, hcut 8 (by decide), hlong [5] (by decide)⟩

end Dbus

end Marshal
