import Marshal.Proofs.Composition
import Marshal.Script.Write
/-!
# What caps allow over any use of a sink

A cap is put on once, and steps are taken behind it for as long as anyone likes, also after some have failed.
`Put.Spends` says of one writer what it takes from the bytes that the caps still let pass, whether it succeeds or fails;
every step of a script is such a writer (`WriteStep.spends`), and the laws of whole scripts follow by induction
(`WriteStep.sinkAfter_within_caps`).
-/
namespace Marshal

/-- Whether no more than `bound` bytes are ever written behind the caps as they are now. -/
def Sink.HeldTo (bound : Nat) (s : Sink) : Prop := s.bytes.size ≤ bound ∧ Cap.AtMost (bound - s.bytes.size) s.caps

theorem Sink.heldTo_size {s : Sink} (h : Cap.AtMost 0 s.caps) : s.HeldTo s.bytes.size :=
  ⟨le_rfl, by rwa [sub_self]⟩

namespace Put

/-- What a writer does to the size of a sink and to what its caps allow, also when it fails. -/
structure Spends {α : Type} (put : Put α) : Prop where
  size_le (s : Sink) : s.bytes.size ≤ (reached (put s)).bytes.size
  held {bound : Nat} {s : Sink} : s.HeldTo bound → (reached (put s)).HeldTo bound
  /-- Once a cap has refused, what is there is all that will be. -/
  refused {s s' : Sink} {limit : Int} : put s = .error (.outputOverCap limit) s' → s'.HeldTo s'.bytes.size

variable {α β : Type} {put : Put α} {next : α → Put β}

/-- A writer that adds nothing and takes no cap away. -/
theorem spends_still (hsize : ∀ s, (reached (put s)).bytes.size = s.bytes.size)
    (hcaps : ∀ s, s.caps ⊆ (reached (put s)).caps)
    (herror : ∀ s limit s', put s ≠ .error (.outputOverCap limit) s') : Spends put where
  size_le s := (hsize s).ge
  held {bound s} h := by
    obtain ⟨hle, c, hc, hleft⟩ := h
    rw [Sink.HeldTo, hsize]
    exact ⟨hle, c, hcaps s hc, hleft⟩
  refused {s s' limit} hr := absurd hr (herror s limit s')

/-- **What is written is charged for first**, so that it is written only as far as every cap lets it pass. -/
theorem spends_charge_bind {n : Nat} (hsize : ∀ s, s.bytes.size ≤ (reached (put s)).bytes.size)
    (hle : ∀ s, (reached (put s)).bytes.size ≤ s.bytes.size + n) (hcaps : ∀ s, (reached (put s)).caps = s.caps)
    (herror : ∀ s limit s', put s ≠ .error (.outputOverCap limit) s') : Spends (do charge n; put) where
  size_le := by
    rintro ⟨bytes, caps⟩
    rw [charge_bind_apply]
    split
    · rename_i caps' _
      exact hsize ⟨bytes, caps'⟩
    · exact le_rfl
  held := by
    rintro bound ⟨bytes, caps⟩ ⟨hbound, hallowed⟩
    rw [charge_bind_apply]
    split
    · rename_i caps' hc
      obtain ⟨hn, hallowed'⟩ := hallowed.of_chargeAll hc
      have hsize' := hle ⟨bytes, caps'⟩
      dsimp only at hn hallowed' hsize'
      refine ⟨by omega, ?_⟩
      rw [hcaps]
      exact hallowed'.mono (by omega)
    · rename_i limit caps' hc
      exact ⟨hbound, (Cap.atMost_zero_of_chargeAll hc).mono (sub_nonneg.2 (Nat.cast_le.2 hbound))⟩
  refused := by
    rintro ⟨bytes, caps⟩ s' limit hr
    rw [charge_bind_apply] at hr
    split at hr
    · exact absurd hr (herror _ _ _)
    · rename_i hc
      cases hr
      exact Sink.heldTo_size (Cap.atMost_zero_of_chargeAll hc)

theorem spends_pure (a : α) : Spends (pure a) := spends_still (fun _ => rfl) (fun _ _ => id) nofun

theorem spends_throw {e : Error} (he : ∀ limit, e ≠ .outputOverCap limit) : Spends (throw e : Put α) :=
  spends_still (fun _ => rfl) (fun _ _ => id) fun _ limit _ hr => he limit (EStateM.Result.error.inj hr).1

theorem spends_position : Spends position := spends_still (fun _ => rfl) (fun _ _ => id) nofun

theorem spends_wrap (limit : Option Int) : Spends (wrap limit) := by
  cases limit with
  | none => exact spends_still (fun _ => rfl) (fun _ _ => id) nofun
  | some n => exact spends_still (fun _ => rfl) (fun s => List.subset_cons_self _ s.caps) nofun

theorem size_overwrite (p : Int) (bs : List UInt8) (s : Sink) :
    (reached (overwrite p bs s)).bytes.size = s.bytes.size := by
  obtain ⟨bytes, caps⟩ := s
  rw [overwrite]
  split
  · rfl
  · exact size_setFrom ..

theorem spends_overwrite (p : Int) (bs : List UInt8) : Spends (overwrite p bs) := by
  refine spends_still (size_overwrite p bs) ?_ ?_
  · rintro ⟨bytes, caps⟩
    rw [overwrite]
    split <;> exact fun _ => id
  · rintro ⟨bytes, caps⟩ limit s' hr
    rw [overwrite] at hr
    split at hr <;> cases hr

theorem spends_writeBytes (bs : List UInt8) : Spends (writeBytes bs) :=
  spends_charge_bind (fun _ => Nat.le.intro (size_append _ bs).symm) (fun _ => (size_append _ bs).le) (fun _ => rfl)
    nofun

/-- A number that is no byte is charged for and not written. -/
theorem spends_writeByte (n : Int) : Spends (writeByte n) := by
  unfold writeByte
  split
  · exact spends_writeBytes [UInt8.ofNat n.toNat]
  · exact spends_charge_bind (fun _ => le_rfl) (fun _ => Nat.le_add_right _ _) (fun _ => rfl) nofun

theorem Spends.bind (h : Spends put) (hn : ∀ a, Spends (next a)) : Spends (put >>= next) where
  size_le s := by
    rw [reached_bind]
    have hsize := h.size_le s
    cases hr : put s with
    | error e s₁ => rwa [hr] at hsize
    | ok a s₁ =>
      rw [hr] at hsize
      exact le_trans hsize ((hn a).size_le s₁)
  held {bound s} hs := by
    rw [reached_bind]
    have hheld := h.held hs
    cases hr : put s with
    | error e s₁ => rwa [hr] at hheld
    | ok a s₁ =>
      rw [hr] at hheld
      exact (hn a).held hheld
  refused hr := by
    rcases bind_eq_error.1 hr with h1 | ⟨a, s₁, -, h2⟩
    · exact h.refused h1
    · exact (hn a).refused h2

/-- **Every writer keeps within its caps.** -/
theorem Composed.spends (h : Composed 0 put) : Spends put := by
  induction h with
  | pure a => exact spends_pure a
  | throw he => exact spends_throw he
  | position h ih => exact spends_position.bind fun p => ih p (Nat.zero_le p)
  | writeBytes bs => exact spends_writeBytes bs
  | overwrite h bs => exact spends_overwrite _ bs
  | bind h h' ih ih' => exact ih.bind ih'

theorem composed_align (alignment : Int) : Composed 0 (align alignment) := by
  refine .position fun p _ => ?_
  unfold padding
  by_cases h0 : alignment = 0
  · rw [if_pos h0]
    exact .throw nofun
  · rw [if_neg h0]
    dsimp only
    split
    · exact .pure ()
    · exact .writeBytes _

end Put

namespace WriteStep

open Put

theorem composed_of_widthError {number width : Int} {put : Put Unit} (h : Composed 0 put) :
    Composed 0 (match widthError? number width with
      | some e => throw e
      | none => put) := by
  unfold widthError?
  split_ifs
  · exact .throw nofun
  · exact .throw nofun
  · exact h

theorem composed_putInt (number width : Int) (signed : Bool) (o : ByteOrder) :
    Composed 0 (putInt number width signed o) := composed_of_widthError (composed_int _ _)

theorem composed_putBoolean (data : Plain) (width : Int) (o : ByteOrder) : Composed 0 (putBoolean data width o) := by
  unfold putBoolean
  split
  · exact composed_putInt _ _ _ _
  · exact .throw nofun

theorem composed_putText (data : Plain) (lengthWidth : Int) (o : ByteOrder) :
    Composed 0 (putText data lengthWidth o) := by
  unfold putText
  split
  · split
    · exact composed_of_widthError (composed_text _ _ _)
    · exact .throw nofun
  · exact .throw nofun

theorem composed_putSignature (data : Plain) (prefixed : Bool) : Composed 0 (putSignature data prefixed) := by
  unfold putSignature
  split
  · exact composed_signature _ _
  · split
    · exact .throw nofun
    · refine .throw ?_
      split <;> exact nofun

/-- **Every step of a script keeps within the caps.** -/
theorem spends (step : WriteStep) : Spends step.put := by
  cases step with
  | wrap limit => exact spends_wrap limit
  | byte n => exact spends_writeByte n
  | bytes bs => exact spends_writeBytes bs
  | overwrite p bs => exact spends_overwrite p bs
  | int n width signed o => exact (composed_putInt n width signed o).spends
  | boolean p width o => exact (composed_putBoolean p width o).spends
  | double bits o => exact (Composed.writeBytes _).spends
  | text p lengthWidth o => exact (composed_putText p lengthWidth o).spends
  | signature p pre => exact (composed_putSignature p pre).spends
  | padding a => exact (composed_align a).spends
  | offsets ns body => exact (Framing.composed_putOffsets ns body).spends
  | value c v => exact (c.composed_put 0 v).spends

/-- The steps that only append the bytes that they are given, or write them over others. -/
def isRaw : WriteStep → Bool
  | .byte _ | .bytes _ | .overwrite .. => true
  | _ => false

/-- A failure leaves nothing behind but charges. -/
theorem bytes_of_isRaw {step : WriteStep} (hraw : step.isRaw) {s s' : Sink} {e : Error}
    (hr : step.put s = .error e s') : s'.bytes = s.bytes := by
  obtain ⟨bytes, caps⟩ := s
  cases step with
  | byte n =>
    rw [put, writeByte, charge_bind_apply] at hr
    split at hr
    · split at hr <;> cases hr
      rfl
    · cases hr
      rfl
  | bytes bs =>
    rw [put, writeBytes_apply] at hr
    split at hr <;> cases hr
    rfl
  | overwrite p bs =>
    rw [put, Put.overwrite] at hr
    split at hr <;> cases hr
    rfl
  | _ => cases hraw

/-! ## Scripts that write -/

/-- The sink after steps in turn, whether they succeeded or failed. -/
def sinkAfter (steps : List WriteStep) (s : Sink) : Sink := (Put.script (steps.map put) s).2

theorem sinkAfter_cons (step : WriteStep) (steps : List WriteStep) (s : Sink) :
    sinkAfter (step :: steps) s = sinkAfter steps (reached (step.put s)) := by
  rw [sinkAfter, List.map_cons, Put.script]
  cases step.put s <;> rfl

theorem sinkAfter_append : ∀ (before after : List WriteStep) (s : Sink),
    sinkAfter (before ++ after) s = sinkAfter after (sinkAfter before s)
  | [], _, _ => rfl
  | step :: before, after, s => by
    rw [List.cons_append, sinkAfter_cons, sinkAfter_cons, sinkAfter_append before]

theorem size_le_sinkAfter : ∀ (steps : List WriteStep) (s : Sink), s.bytes.size ≤ (sinkAfter steps s).bytes.size
  | [], _ => le_rfl
  | step :: steps, s => by
    rw [sinkAfter_cons]
    exact le_trans (step.spends.size_le s) (size_le_sinkAfter steps _)

theorem heldTo_sinkAfter {bound : Nat} : ∀ (steps : List WriteStep) {s : Sink}, s.HeldTo bound →
    (sinkAfter steps s).HeldTo bound
  | [], _, h => h
  | step :: steps, _, h => by
    rw [sinkAfter_cons]
    exact heldTo_sinkAfter steps (step.spends.held h)

/-- **Caps hold over any use of a sink.** Behind a cap no more bytes are ever appended than it allows, once a cap has
refused nothing is appended any more, writing over bytes never changes how many there are, and a raw step that fails
leaves them as they were. -/
theorem sinkAfter_within_caps (s : Sink) (before after : List WriteStep) :
    (∀ N, ((sinkAfter (before ++ .wrap (some N) :: after) s).bytes.size : Int) ≤
      (sinkAfter before s).bytes.size + max N 0) ∧
    (∀ step limit s', put step (sinkAfter before s) = .error (.outputOverCap limit) s' →
      (sinkAfter (before ++ step :: after) s).bytes.size = s'.bytes.size) ∧
    (∀ p bs, (sinkAfter (before ++ [.overwrite p bs]) s).bytes.size = (sinkAfter before s).bytes.size) ∧
    ∀ step e s', isRaw step → put step (sinkAfter before s) = .error e s' →
      s'.bytes = (sinkAfter before s).bytes := by
  generalize hs : sinkAfter before s = s₀
  refine ⟨fun N => ?_, fun step limit s' hr => ?_, fun p bs => ?_, fun step e s' hraw hr => bytes_of_isRaw hraw hr⟩
  · -- A new cap has all of `N` left, and no step gives it anything back.
    rw [sinkAfter_append, hs, sinkAfter_cons]
    have hheld : (reached (put (.wrap (some N)) s₀)).HeldTo (s₀.bytes.size + N.toNat) := by
      refine ⟨Nat.le_add_right _ _, Cap.atMost_head ?_⟩
      change N ≤ ((s₀.bytes.size + N.toNat : Nat) : Int) - s₀.bytes.size
      omega
    obtain ⟨hle, -⟩ := heldTo_sinkAfter after hheld
    omega
  · rw [sinkAfter_append, hs, sinkAfter_cons, hr]
    obtain ⟨hle, -⟩ := heldTo_sinkAfter after (step.spends.refused hr)
    exact le_antisymm hle (size_le_sinkAfter after s')
  · rw [sinkAfter_append, hs, sinkAfter_cons]
    exact size_overwrite p bs s₀

/-- Four bytes pass the cap that was put on last, but not the one behind it. Later there is room for nothing, but what
is there can be written over. -/
theorem sinkAfter_within_caps_nested :
    let before : List WriteStep := [.wrap (some 3), .bytes [1, 2], .wrap (some 5)]
    let after : List WriteStep := [.byte 4, .overwrite 0 [9]]
    put (.int 7 4 false .little) (sinkAfter before {}) = .error (.outputOverCap 3) ⟨#[1, 2], [⟨5, 1⟩, ⟨3, -3⟩]⟩ ∧
      (sinkAfter (before ++ .int 7 4 false .little :: after) {}).bytes.size = 2 ∧
      put (.byte 256) (sinkAfter before {}) = .error .notByte ⟨#[1, 2], [⟨5, 4⟩, ⟨3, 0⟩]⟩ ∧
      #[1, 2] = (sinkAfter before {}).bytes := by
  intro before after
  obtain ⟨-, hrefused, -, hraw⟩ := sinkAfter_within_caps {} before after
  have hint : put (.int 7 4 false .little) (sinkAfter before {}) =
      .error (.outputOverCap 3) ⟨#[1, 2], [⟨5, 1⟩, ⟨3, -3⟩]⟩ := rfl
  have hbyte : put (.byte 256) (sinkAfter before {}) = .error .notByte ⟨#[1, 2], [⟨5, 4⟩, ⟨3, 0⟩]⟩ := rfl
  exact ⟨hint, hrefused _ _ _ hint, hbyte, hraw _ _ _ rfl hbyte⟩

end WriteStep

end Marshal
