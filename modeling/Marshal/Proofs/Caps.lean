import Marshal.Proofs.Dbus.Metering
import Marshal.Proofs.Decoding
import Marshal.Proofs.Gvariant.Metering
/-!
# Encoding and decoding behind a cap

A cap selects the outputs and the inputs that fit, exactly: what is charged over a run is the number of bytes, in both
directions and both formats.

It does not only refuse input that is too long, though. A reader that asks for more bytes than there are is charged for
them first, so an input that ends too early is refused as too long where the length that it tells is over the cap.
`Codec.Overreaches` is when that happens, and nothing else changes behind a cap.
-/
namespace Marshal

variable {α : Type} {N : Int} {told : Prop}

/-! ## Runs -/

namespace Get

variable {get : Get α} {data : List UInt8} {a : α} {e : Error}

/-- A reader that has to take the whole of its input. -/
def whole (get : Get α) : Get α := do
  let a ← get
  finish
  return a

theorem run_eq_error_iff {s : Source} : run get s = .error e ↔ ∃ s', whole get s = .error e s' := by
  have hall : (do let a ← get; finish; return a : Get α) s = whole get s := rfl
  rw [run, hall]
  cases whole get s <;> simp

theorem metered_whole (h : Metered (Source.meter told) get) : Metered (Source.meter told) (whole get) :=
  h.bind fun _ => metered_finish.map

/-- A run that succeeds is charged for the whole input. -/
theorem run_capped_eq_ok_iff (h : Metered (Source.meter told) get) (hN : 0 ≤ N) :
    run get { rest := data, caps := [Cap.new N] } = .ok a ↔
      run get { rest := data } = .ok a ∧ (data.length : Int) ≤ N := by
  have hpassed (s' : Source) (h0 : s'.rest = []) :
      (Source.meter told).passed s' - (Source.meter told).passed { rest := data } = data.length := by
    simp [Source.meter, h0]
  have hiff := h.eq_ok_iff (s := { rest := data }) rfl (c := Cap.new N) hN a
  rw [run_eq_ok, run_eq_ok]
  constructor
  · rintro ⟨s'', hs'', h0⟩
    obtain ⟨s', hs', hle, rfl⟩ := (hiff s'').1 hs''
    exact ⟨⟨s', hs', h0⟩, (hpassed s' h0).ge.trans hle⟩
  · rintro ⟨⟨s', hs', h0⟩, hle⟩
    exact ⟨_, (hiff _).2 ⟨s', hs', (hpassed s' h0).trans_le hle, rfl⟩, h0⟩

/-- A run that fails does so behind a cap as well, and if not in the same way then because of the cap. -/
theorem run_capped_of_error (h : Metered (Source.meter told) get) (hN : 0 ≤ N)
    (hr : run get { rest := data } = .error e) :
    ∃ e', run get { rest := data, caps := [Cap.new N] } = .error e' ∧
      (e' = e ∨ e' = .inputOverCap N ∧ (N < data.length ∨ told ∧ ∃ k ∈ e.reach data.length, N < k)) ∧
      ((told ∧ ∃ k ∈ e.reach data.length, N < k) → e' = .inputOverCap N) := by
  obtain ⟨s', hs'⟩ := run_eq_error_iff.1 hr
  obtain ⟨e', s'', herror, hcases, hforces⟩ := (metered_whole h).error (c := Cap.new N) rfl hs' hN
  exact ⟨e', run_eq_error_iff.2 ⟨s'', herror⟩, hcases, hforces⟩

end Get

namespace Put

variable {put : Put Unit} {b : Array UInt8} {e : Error}

/-- What a run gives behind a cap, whatever number that is, it gives without one. -/
theorem Composed.run_of_capped {cap : Option Int} (h : Composed 0 put) (hr : run put cap = .ok b) :
    run put none = .ok b := by
  obtain ⟨s, hs, rfl⟩ := run_eq_ok_iff.1 hr
  exact run_eq_ok_iff.2 ⟨_, (h.ok_of_capped hs).1, rfl⟩

/-- What a run behind a cap fails with it fails with in any case, or it is the cap. -/
theorem Composed.error_of_run_capped {cap : Option Int} (h : Composed 0 put) (hr : run put cap = .error e) :
    run put none = .error e ∨ ∃ N ∈ cap, e = .outputOverCap N := by
  obtain ⟨s, hs⟩ := run_eq_error_iff.1 hr
  rcases h.error_of_capped hs with hnone | ⟨limit, hmem, rfl⟩
  · exact .inl (run_eq_error_iff.2 ⟨_, hnone⟩)
  · refine .inr ⟨limit, ?_, rfl⟩
    cases cap with
    | none => cases hmem
    | some N =>
      obtain rfl := List.mem_singleton.1 hmem
      rfl

/-- A run that succeeds is charged for the whole output. -/
theorem run_capped_eq_ok_iff (h : Metered Sink.meter put) (hN : 0 ≤ N) :
    run put (some N) = .ok b ↔ run put none = .ok b ∧ (b.size : Int) ≤ N := by
  have hpassed (s' : Sink) : Sink.meter.passed s' - Sink.meter.passed {} = s'.bytes.size := by
    simp [Sink.meter]
  have hiff := h.eq_ok_iff (s := {}) rfl (c := Cap.new N) hN ()
  rw [run_eq_ok_iff, run_eq_ok_iff]
  constructor
  · rintro ⟨s'', hs'', rfl⟩
    obtain ⟨s', hs', hle, rfl⟩ := (hiff s'').1 hs''
    rw [hpassed] at hle
    exact ⟨⟨s', hs', rfl⟩, hle⟩
  · rintro ⟨⟨s', hs', rfl⟩, hle⟩
    exact ⟨_, (hiff _).2 ⟨s', hs', (hpassed s').trans_le hle, rfl⟩, rfl⟩

theorem run_capped_of_lt (h : Metered Sink.meter put) (hN : 0 ≤ N) (hr : run put none = .ok b) (hlt : N < b.size) :
    run put (some N) = .error (.outputOverCap N) := by
  obtain ⟨s, hs, rfl⟩ := run_eq_ok_iff.1 hr
  have hover : N < Sink.meter.passed s - Sink.meter.passed {} := by
    simpa [Sink.meter] using hlt
  obtain ⟨s'', herror⟩ := h.beyond (c := Cap.new N) rfl hs hN hover
  exact run_eq_error_iff.2 ⟨s'', herror⟩

end Put

namespace Codec

/-! ## What fits -/

theorem metered_put (c : Codec) (v : Value) : Metered Sink.meter (c.put v) := (c.composed_put 0 v).metered

/-- Whether bytes are asked for one read at a time. A GVariant container asks for all that is left instead. -/
def ReadsPiecewise (c : Codec) (t : Ty) : Prop := c.format = .dbus ∨ ∃ b, t = .basic b

theorem exists_metered_get (c : Codec) (t : Ty) : ∃ step : Get Value,
    Metered (Source.meter (c.ReadsPiecewise t)) step ∧ ∀ s : Source, s.position = 0 → c.get t s = step s := by
  unfold get
  cases hc : c.format with
  | dbus => exact ⟨_, Dbus.metered_get (.inl hc) c.room t, fun _ _ => rfl⟩
  | gvariant =>
    have htold : c.ReadsPiecewise t = ∃ b, t = .basic b := propext (by simp [ReadsPiecewise, hc])
    rw [htold]
    exact Gvariant.exists_metered_get c.room t

/-- Decoding, as a metered run. -/
theorem exists_decode_eq (c : Codec) (data : List UInt8) (t : Ty) : ∃ step : Get Value,
    Metered (Source.meter (c.ReadsPiecewise t)) step ∧ c.decode none data t = Get.run step { rest := data } ∧
      ∀ N, c.decode (some N) data t = Get.run step { rest := data, caps := [Cap.new N] } := by
  obtain ⟨step, hstep, heq⟩ := c.exists_metered_get t
  have hrun {s : Source} (hs : s.position = 0) : Get.run (c.get t) s = Get.run step s := by
    simp only [Get.run, bind, EStateM.bind, heq s hs]
  exact ⟨step, hstep, hrun rfl, fun N => hrun (s := { rest := data, caps := [Cap.new N] }) rfl⟩

/-- **A cap selects exactly the outputs and the inputs that fit.** Encoding behind a cap gives what it gives without one
if that is no longer than the cap, and is refused if it is; decoding behind a cap gives what it gives without one if the
input is no longer. -/
theorem capped_eq_ok_iff (c : Codec) {N : Int} (hN : 0 ≤ N) :
    (∀ v b, c.encode (some N) v = .ok b ↔ c.encode none v = .ok b ∧ (b.size : Int) ≤ N) ∧
      (∀ v b, c.encode none v = .ok b → N < b.size → c.encode (some N) v = .error (.outputOverCap N)) ∧
      ∀ data t v, c.decode (some N) data t = .ok v ↔ c.decode none data t = .ok v ∧ (data.length : Int) ≤ N := by
  refine ⟨fun v b => ?_, fun v b => ?_, fun data t v => ?_⟩
  · exact Put.run_capped_eq_ok_iff (c.metered_put v) hN
  · exact Put.run_capped_of_lt (c.metered_put v) hN
  · obtain ⟨step, hstep, hnone, hsome⟩ := c.exists_decode_eq data t
    rw [hnone, hsome]
    exact Get.run_capped_eq_ok_iff hstep hN

/-- A byte fits a cap of one byte, both ways, and two bytes do not. -/
theorem capped_eq_ok_iff_byte :
    (0 : Int) ≤ 1 ∧ encode ⟨.dbus, .little, 64, 0⟩ (some 1) (.scalar (.int .byte 7)) = .ok #[7] ∧
      encode ⟨.dbus, .little, 64, 0⟩ (some 1) (.scalar (.int .int16 7)) = .error (.outputOverCap 1) ∧
      decode ⟨.gvariant, .little, 64, 0⟩ (some 1) [7] (.basic (.int .byte)) = .ok (.scalar (.int .byte 7)) := by
  obtain ⟨hfits, hover, -⟩ := capped_eq_ok_iff ⟨.dbus, .little, 64, 0⟩ (N := 1) (by decide)
  obtain ⟨-, -, hread⟩ := capped_eq_ok_iff ⟨.gvariant, .little, 64, 0⟩ (N := 1) (by decide)
  exact ⟨by decide, (hfits _ _).2 ⟨rfl, by decide⟩, hover _ #[7, 0] rfl (by decide), (hread _ _ _).2 ⟨rfl, by decide⟩⟩

/-! ## What else a cap refuses -/

/-- Whether decoding without a cap fails for want of bytes at a read that would have ended beyond the cap. -/
def Overreaches (c : Codec) (N : Int) (data : List UInt8) (t : Ty) : Prop :=
  c.ReadsPiecewise t ∧ ∃ e, c.decode none data t = .error e ∧ ∃ k ∈ e.reach data.length, N < k

/-- Without a cap nothing is refused as too long. -/
theorem kind_ne_byteCap {c : Codec} {data : List UInt8} {t : Ty} (ht : t.Constructed) {e : Error}
    (h : c.decode none data t = .error e) : e.kind ≠ .byteCap := by
  rcases c.decode_settles none nofun data t ht with ⟨v, hv, -⟩ | ⟨e', he', hcases⟩
  · rw [h] at hv
    cases hv
  · rw [h] at he'
    cases he'
    rcases hcases with ⟨d, rfl⟩ | ⟨n, hn, -⟩ | ⟨rfl, -⟩
    · nofun
    · cases hn
    · nofun

/-- **A cap refuses input that is too long, and input that ends before a read that reaches beyond the cap.** Input that
fits is otherwise told from input without a cap by nothing. -/
theorem decode_capped (c : Codec) {N : Int} (hN : 0 ≤ N) (data : List UInt8) {t : Ty} (ht : t.Constructed) :
    (∀ e, c.decode (some N) data t = .error e → e.kind = .byteCap → N < data.length ∨ c.Overreaches N data t) ∧
      ((data.length : Int) ≤ N → c.Overreaches N data t → c.decode (some N) data t = .error (.inputOverCap N)) ∧
      ((data.length : Int) ≤ N → ¬ c.Overreaches N data t → c.decode (some N) data t = c.decode none data t) := by
  obtain ⟨step, hstep, hnone, hsome⟩ := c.exists_decode_eq data t
  cases hr : c.decode none data t with
  | ok v =>
    have hiff : c.decode (some N) data t = .ok v ↔ c.decode none data t = .ok v ∧ (data.length : Int) ≤ N := by
      rw [hnone, hsome]
      exact Get.run_capped_eq_ok_iff hstep hN
    have hnot : ¬ c.Overreaches N data t := by
      rintro ⟨-, e, he, -⟩
      rw [hr] at he
      cases he
    refine ⟨fun e he _ => .inl (not_le.1 fun hle => ?_), fun _ h => absurd h hnot, fun hle _ => hiff.2 ⟨hr, hle⟩⟩
    rw [hiff.2 ⟨hr, hle⟩] at he
    cases he
  | error e =>
    obtain ⟨e', hcapped, hcases, hforced⟩ := Get.run_capped_of_error hstep hN (hnone ▸ hr)
    rw [← hsome] at hcapped
    have hreach : c.Overreaches N data t ↔ c.ReadsPiecewise t ∧ ∃ k ∈ e.reach data.length, N < k := by
      unfold Overreaches
      simp only [hr, Except.error.injEq, exists_eq_left']
    rw [hcapped, hreach]
    refine ⟨fun e₁ he₁ hkind => ?_, fun _ h => congrArg _ (hforced h), fun hle hnot => ?_⟩
    · cases he₁
      rcases hcases with rfl | ⟨-, h⟩
      · exact absurd hkind (kind_ne_byteCap ht hr)
      · exact h
    · rcases hcases with rfl | ⟨-, hlt | h⟩
      · rfl
      · exact absurd hle (not_le.2 hlt)
      · exact absurd h hnot

/-- Four bytes that tell a length of 255 are refused as longer than four bytes. -/
theorem decode_capped_underrun :
    (0 : Int) ≤ 4 ∧ (Ty.basic (.text .string)).Constructed ∧
      decode ⟨.dbus, .little, 64, 0⟩ (some 4) [255, 0, 0, 0] (.basic (.text .string)) = .error (.inputOverCap 4) := by
  refine ⟨by decide, .basic _, ?_⟩
  have h := (decode_capped ⟨.dbus, .little, 64, 0⟩ (N := 4) (by decide) [255, 0, 0, 0]
    (t := .basic (.text .string)) (.basic _)).2.1
  exact h (by decide) ⟨.inl rfl, .decode (.underrun 255 0), rfl, 259, rfl, by decide⟩

/-- A cap is not only for input that is too long: the same four bytes fit it, and without it they are a string that ends
too early. -/
theorem decode_fits_capped_underrun :
    ¬ ∀ (c : Codec) (N : Int) (data : List UInt8) (t : Ty) (e : Error), 0 ≤ N → t.Constructed →
      c.decode (some N) data t = .error e → e.kind = .byteCap → N < data.length := by
  intro h
  have hlt := h ⟨.dbus, .little, 64, 0⟩ 4 [255, 0, 0, 0] (.basic (.text .string)) (.inputOverCap 4) (by decide)
    (.basic _) rfl rfl
  exact absurd hlt (by decide)

end Codec

end Marshal
