import Mathlib.Tactic
import Marshal.Proofs.Composition
/-!
# What a cap changes

A step that reads or writes behind a cap is told from the same step without one: it gives the same as long as no more
bytes pass than the cap lets through, and is refused otherwise. That says all of a step that succeeds. Where it fails
without a cap, the cap can come first, and then the step is refused before it gets to its own error. `Metered` says so
of readers and writers alike, and is closed under bind.

A read is charged before it is tried, so a cap also refuses a read that asks for more than is there. `Error.reach` says
where such a read would have ended.
-/
namespace Marshal

/-- Where the read that failed would have ended in an input of some size, if it failed for want of bytes. -/
def Error.reach (size : Int) : Error → Option Int
  | .decode (.underrun need left) => some (size - left + need)
  | .decode .noByte => some (size + 1)
  | _ => none

/-- A reach is counted from the first byte, so what stands before an input adds to it. -/
theorem Error.mem_reach_add {e : Error} {size k : Int} (n : Int) :
    k + n ∈ e.reach (size + n) ↔ k ∈ e.reach size := by
  unfold Error.reach
  split <;> simp only [Option.mem_def, Option.some.injEq, reduceCtorEq] <;> omega

/-- What is put behind a cap: a source or a sink, and how its steps fail there. -/
structure Meter (σ : Type) where
  caps : σ → List Cap
  /-- The same with a cap before it. -/
  behind : Cap → σ → σ
  /-- The number of bytes that have passed, counted from any start. -/
  passed : σ → Int
  /-- What a cap with this limit refuses with. -/
  refusal : Int → Error
  /-- Whether a cap with so much left can refuse a step that fails with an error without it. -/
  Allows : Int → σ → Error → Prop
  /-- Whether it has to. -/
  Forces : Int → σ → Error → Prop
  allows_of_lt {left : Int} {s s' : σ} {e : Error} : left < passed s' - passed s → Allows left s e
  allows_of_later {left : Int} {s s' : σ} {e : Error} :
    Allows (left - (passed s' - passed s)) s' e → Allows left s e
  forces_later {left : Int} {s s' : σ} {e : Error} :
    Forces left s e → Forces (left - (passed s' - passed s)) s' e

variable {σ α β : Type} {m : Meter σ} {step : EStateM Error σ α} {next : α → EStateM Error σ β}

/-- What a step does behind a cap, told from what it does without one. -/
structure Metered (m : Meter σ) (step : EStateM Error σ α) : Prop where
  free {s s' : σ} {a : α} : m.caps s = [] → step s = .ok a s' → m.caps s' = [] ∧ m.passed s ≤ m.passed s'
  within {s s' : σ} {a : α} {c : Cap} : m.caps s = [] → step s = .ok a s' → m.passed s' - m.passed s ≤ c.left →
    step (m.behind c s) = .ok a (m.behind ⟨c.limit, c.left - (m.passed s' - m.passed s)⟩ s')
  beyond {s s' : σ} {a : α} {c : Cap} : m.caps s = [] → step s = .ok a s' → 0 ≤ c.left →
    c.left < m.passed s' - m.passed s → ∃ s'', step (m.behind c s) = .error (m.refusal c.limit) s''
  error {s s' : σ} {e : Error} {c : Cap} : m.caps s = [] → step s = .error e s' → 0 ≤ c.left →
    ∃ e' s'', step (m.behind c s) = .error e' s'' ∧ (e' = e ∨ e' = m.refusal c.limit ∧ m.Allows c.left s e) ∧
      (m.Forces c.left s e → e' = m.refusal c.limit)

/-- A step that lets nothing pass and does not look at the cap. -/
theorem metered_still
    (hok : ∀ {s s' a}, m.caps s = [] → step s = .ok a s' → m.caps s' = [] ∧ m.passed s' = m.passed s ∧
      ∀ c, step (m.behind c s) = .ok a (m.behind c s'))
    (herror : ∀ {s s' e}, m.caps s = [] → step s = .error e s' → (∀ left, ¬ m.Forces left s e) ∧
      ∀ c, ∃ s'', step (m.behind c s) = .error e s'') : Metered m step where
  free hs hr := by
    obtain ⟨hs', heq, -⟩ := hok hs hr
    exact ⟨hs', heq.ge⟩
  within hs hr _ := by
    obtain ⟨-, heq, h⟩ := hok hs hr
    rw [heq, sub_self, sub_zero]
    exact h _
  beyond hs hr h0 hlt := by
    obtain ⟨-, heq, -⟩ := hok hs hr
    omega
  error {s s' e c} hs hr _ := by
    obtain ⟨hf, h⟩ := herror hs hr
    obtain ⟨s'', h⟩ := h c
    exact ⟨e, s'', h, .inl rfl, fun hforces => absurd hforces (hf _)⟩

theorem metered_look {f : σ → α} (h : ∀ {s} c, f (m.behind c s) = f s) :
    Metered m fun s => .ok (f s) s :=
  metered_still (fun hs hr => by cases hr; exact ⟨hs, rfl, fun c => by rw [h]⟩) fun _ hr => nomatch hr

theorem metered_pure (a : α) : Metered m (pure a) := metered_look (f := fun _ => a) fun _ => rfl

theorem Metered.throw {e : Error} (h : ∀ left s, ¬ m.Forces left s e) : Metered m (throw e : EStateM Error σ α) :=
  metered_still (fun _ hr => nomatch hr) fun _ hr => by
    cases hr
    exact ⟨fun left => h left _, fun c => ⟨_, rfl⟩⟩

/-- **Steps in a row are charged for what both let pass.** -/
theorem Metered.bind (h : Metered m step) (hn : ∀ a, Metered m (next a)) : Metered m (step >>= next) where
  free hs hr := by
    obtain ⟨a, s₁, h1, h2⟩ := bind_eq_ok.1 hr
    obtain ⟨hs₁, hle⟩ := h.free hs h1
    obtain ⟨hs', hle'⟩ := (hn a).free hs₁ h2
    exact ⟨hs', hle.trans hle'⟩
  within {s s' b c} hs hr hle := by
    obtain ⟨a, s₁, h1, h2⟩ := bind_eq_ok.1 hr
    obtain ⟨hs₁, hle₁⟩ := h.free hs h1
    obtain ⟨-, hle₂⟩ := (hn a).free hs₁ h2
    have hstep := h.within (c := c) hs h1 (by omega)
    have hnext := (hn a).within (c := ⟨c.limit, c.left - (m.passed s₁ - m.passed s)⟩) hs₁ h2 (by simp only; omega)
    have hleft : c.left - (m.passed s₁ - m.passed s) - (m.passed s' - m.passed s₁) =
        c.left - (m.passed s' - m.passed s) := by omega
    rw [hleft] at hnext
    exact bind_eq_ok.2 ⟨a, _, hstep, hnext⟩
  beyond {s s' b c} hs hr h0 hlt := by
    obtain ⟨a, s₁, h1, h2⟩ := bind_eq_ok.1 hr
    obtain ⟨hs₁, -⟩ := h.free hs h1
    by_cases hle : m.passed s₁ - m.passed s ≤ c.left
    · obtain ⟨s'', hnext⟩ := (hn a).beyond (c := ⟨c.limit, c.left - (m.passed s₁ - m.passed s)⟩) hs₁ h2
        (by simp only; omega) (by simp only; omega)
      exact ⟨s'', bind_eq_error.2 (.inr ⟨a, _, h.within hs h1 hle, hnext⟩)⟩
    · obtain ⟨s'', hstep⟩ := h.beyond hs h1 h0 (not_le.1 hle)
      exact ⟨s'', bind_eq_error.2 (.inl hstep)⟩
  error {s s' e c} hs hr h0 := by
    rcases bind_eq_error.1 hr with h1 | ⟨a, s₁, h1, h2⟩
    · obtain ⟨e', s'', hstep, hresult⟩ := h.error hs h1 h0
      exact ⟨e', s'', bind_eq_error.2 (.inl hstep), hresult⟩
    obtain ⟨hs₁, -⟩ := h.free hs h1
    by_cases hle : m.passed s₁ - m.passed s ≤ c.left
    · obtain ⟨e', s'', hnext, hcases, hforces⟩ :=
        (hn a).error (c := ⟨c.limit, c.left - (m.passed s₁ - m.passed s)⟩) hs₁ h2 (by simp only; omega)
      refine ⟨e', s'', bind_eq_error.2 (.inr ⟨a, _, h.within hs h1 hle, hnext⟩), ?_, fun hf => ?_⟩
      · exact hcases.imp_right fun ⟨he, ha⟩ => ⟨he, m.allows_of_later ha⟩
      · exact hforces (m.forces_later hf)
    · have hlt := not_le.1 hle
      obtain ⟨s'', hstep⟩ := h.beyond hs h1 h0 hlt
      exact ⟨_, s'', bind_eq_error.2 (.inl hstep), .inr ⟨rfl, m.allows_of_lt hlt⟩, fun _ => rfl⟩

theorem Metered.map {f : α → β} (h : Metered m step) : Metered m (step >>= fun a => pure (f a)) :=
  h.bind fun a => metered_pure (f a)

/-- **Behind a cap a step succeeds just when it does without one and lets no more pass than the cap.** -/
theorem Metered.eq_ok_iff (h : Metered m step) {s : σ} (hs : m.caps s = []) {c : Cap} (h0 : 0 ≤ c.left) (a : α)
    (s'' : σ) : step (m.behind c s) = .ok a s'' ↔ ∃ s', step s = .ok a s' ∧ m.passed s' - m.passed s ≤ c.left ∧
      s'' = m.behind ⟨c.limit, c.left - (m.passed s' - m.passed s)⟩ s' := by
  constructor
  · intro hcapped
    cases hr : step s with
    | error e s' =>
      obtain ⟨e', s₁, herror, -⟩ := h.error hs hr h0
      rw [herror] at hcapped
      cases hcapped
    | ok b s' =>
      by_cases hle : m.passed s' - m.passed s ≤ c.left
      · rw [h.within hs hr hle] at hcapped
        cases hcapped
        exact ⟨s', rfl, hle, rfl⟩
      · obtain ⟨s₁, herror⟩ := h.beyond hs hr h0 (not_le.1 hle)
        rw [herror] at hcapped
        cases hcapped
  · rintro ⟨s', hr, hle, rfl⟩
    exact h.within hs hr hle

/-- What one cap makes of a charge. -/
theorem Cap.chargeAll_singleton (n : Int) (c : Cap) :
    chargeAll n [c] = (if c.left < n then some c.limit else none, [⟨c.limit, c.left - n⟩]) := by
  simp only [chargeAll]
  split <;> split <;> first | rfl | omega

/-! ## Writers -/

/-- A sink behind a cap. A writer that fails can be refused at any point before that. -/
def Sink.meter : Meter Sink where
  caps := Sink.caps
  behind c s := { s with caps := [c] }
  passed s := s.bytes.size
  refusal := .outputOverCap
  Allows _ _ _ := True
  Forces _ _ _ := False
  allows_of_lt _ := trivial
  allows_of_later _ := trivial
  forces_later := id

namespace Put

theorem metered_throw {e : Error} : Metered Sink.meter (throw e : Put α) := Metered.throw fun _ _ => id

theorem metered_position : Metered Sink.meter Put.position := metered_look fun _ => rfl

/-- Bytes that are written are charged for. -/
theorem metered_writeBytes (bs : List UInt8) : Metered Sink.meter (writeBytes bs) := by
  have hfree (bytes : Array UInt8) : writeBytes bs ⟨bytes, []⟩ = .ok () ⟨bytes ++ bs, []⟩ := rfl
  have hcapped (bytes : Array UInt8) (c : Cap) : writeBytes bs ⟨bytes, [c]⟩ =
      if c.left < bs.length then .error (.outputOverCap c.limit) ⟨bytes, [⟨c.limit, c.left - bs.length⟩]⟩
      else .ok () ⟨bytes ++ bs, [⟨c.limit, c.left - bs.length⟩]⟩ := by
    rw [writeBytes_apply, Cap.chargeAll_singleton]
    by_cases hlt : c.left < bs.length
    · simp only [if_pos hlt]
    · simp only [if_neg hlt]
  have hpassed (bytes : Array UInt8) (caps caps' : List Cap) :
      Sink.meter.passed ⟨bytes ++ bs, caps⟩ - Sink.meter.passed ⟨bytes, caps'⟩ = bs.length := by
    simp only [Sink.meter, size_append]
    omega
  constructor
  · rintro ⟨bytes, caps⟩ s' a rfl hr
    cases (hfree bytes).symm.trans hr
    have := hpassed bytes [] []
    exact ⟨rfl, by omega⟩
  · rintro ⟨bytes, caps⟩ s' a c rfl hr hle
    cases (hfree bytes).symm.trans hr
    rw [hpassed] at hle ⊢
    exact (hcapped bytes c).trans (if_neg (not_lt.2 hle))
  · rintro ⟨bytes, caps⟩ s' a c rfl hr - hlt
    cases (hfree bytes).symm.trans hr
    rw [hpassed] at hlt
    exact ⟨_, (hcapped bytes c).trans (if_pos hlt)⟩
  · rintro ⟨bytes, caps⟩ s' e c rfl hr
    cases (hfree bytes).symm.trans hr

/-- What is written over is not charged for again. -/
theorem metered_overwrite (position : Int) (bs : List UInt8) : Metered Sink.meter (overwrite position bs) := by
  refine metered_still ?_ ?_
  · rintro ⟨bytes, caps⟩ s' a hs hr
    simp only [overwrite] at hr
    split at hr
    · cases hr
    rename_i hin
    cases hr
    exact ⟨hs, congrArg Nat.cast (size_setFrom _ _ _), fun c => if_neg hin⟩
  · rintro ⟨bytes, caps⟩ s' e hs hr
    simp only [overwrite] at hr
    split at hr
    · rename_i hout
      cases hr
      exact ⟨fun _ => id, fun c => ⟨_, if_pos hout⟩⟩
    · cases hr

/-- **Every writer is charged for what it writes.** -/
theorem Composed.metered {put : Put α} (h : Composed 0 put) : Metered Sink.meter put := by
  induction h with
  | pure a => exact metered_pure a
  | throw he => exact metered_throw
  | position h ih => exact metered_position.bind fun p => ih p (Nat.zero_le p)
  | writeBytes bs => exact metered_writeBytes bs
  | overwrite h bs => exact metered_overwrite _ bs
  | bind h h' ih ih' => exact ih.bind ih'

end Put

/-! ## Readers -/

/-- A source behind a cap. A reader that fails can be refused only for input beyond the cap, or, where reads are `told`
one by one, for a read that reaches beyond it; then it has to be. -/
def Source.meter (told : Prop) : Meter Source where
  caps := Source.caps
  behind c s := { s with caps := [c] }
  passed s := -s.rest.length
  refusal := .inputOverCap
  Allows left s e := left < s.rest.length ∨ told ∧ ∃ k ∈ e.reach s.rest.length, left < k
  Forces left s e := told ∧ ∃ k ∈ e.reach s.rest.length, left < k
  allows_of_lt h := .inl (by omega)
  allows_of_later {left s s' e} h := by
    rcases h with h | ⟨ht, k, hk, hlt⟩
    · exact .inl (by omega)
    · have hreach := (Error.mem_reach_add (s.rest.length - s'.rest.length : Int)).2 hk
      rw [add_sub_cancel] at hreach
      exact .inr ⟨ht, _, hreach, by omega⟩
  forces_later {left s s' e} h := by
    obtain ⟨ht, k, hk, hlt⟩ := h
    have hreach := (Error.mem_reach_add (s'.rest.length - s.rest.length : Int)).2 hk
    rw [add_sub_cancel] at hreach
    exact ⟨ht, _, hreach, by omega⟩

namespace Get

variable {told : Prop} {get : Get α}

theorem metered_throw {e : Error} (he : told → ∀ size, e.reach size = none) :
    Metered (Source.meter told) (throw e : Get α) :=
  Metered.throw fun left s ⟨ht, k, hk, _⟩ => by
    rw [he ht] at hk
    cases hk

theorem metered_fail {d : DecodeError} (hd : told → ∀ size, (Error.decode d).reach size = none) :
    Metered (Source.meter told) (fail d : Get α) := metered_throw hd

theorem metered_ofExcept {r : Except Error α} (hr : told → ∀ e, r = .error e → ∀ size, e.reach size = none) :
    Metered (Source.meter told) (ofExcept r) := by
  cases r with
  | error e => exact metered_throw fun ht => hr ht e rfl
  | ok a => exact metered_pure a

theorem metered_position : Metered (Source.meter told) position := metered_look fun _ => rfl

theorem metered_remaining : Metered (Source.meter told) remaining := metered_look fun _ => rfl

theorem metered_has (n : Nat) : Metered (Source.meter told) (has n) := metered_look fun _ => rfl

theorem metered_finish : Metered (Source.meter told) finish := by
  refine metered_still ?_ ?_
  · intro s s' a hs hr
    unfold finish at hr
    split at hr
    · rename_i h0
      cases hr
      exact ⟨hs, rfl, fun c => if_pos h0⟩
    · cases hr
  · intro s s' e hs hr
    unfold finish at hr
    split at hr
    · cases hr
    · rename_i h0
      cases hr
      refine ⟨fun left hforces => ?_, fun c => ⟨_, if_neg h0⟩⟩
      obtain ⟨_, k, hk, _⟩ := hforces
      cases hk

/-- A read behind caps is refused by one of them, or is made. -/
theorem charge_bind_apply {α : Type} (take : Get α) (n p : Int) (rest : List UInt8) (caps : List Cap) :
    (do charge n; take : Get α) ⟨p, rest, caps⟩ =
      match Cap.chargeAll n caps with
      | (none, caps) => take ⟨p, rest, caps⟩
      | (some limit, caps) => .error (.inputOverCap limit) ⟨p, rest, caps⟩ := by
  change EStateM.bind (charge n) (fun _ => take) _ = _
  rw [EStateM.bind, charge]
  rcases Cap.chargeAll n caps with ⟨_ | limit, caps⟩ <;> rfl

/-- A step that takes `n` bytes, with no look at the cap, or fails for want of them. -/
structure TakesBytes (take : Get α) (n : Int) : Prop where
  ok {p : Int} {rest : List UInt8} {caps : List Cap} {s' : Source} {a : α} : take ⟨p, rest, caps⟩ = .ok a s' →
    s'.caps = caps ∧ 0 ≤ n ∧ (s'.rest.length : Int) = rest.length - n ∧
    ∀ caps', take ⟨p, rest, caps'⟩ = .ok a { s' with caps := caps' }
  error {p : Int} {rest : List UInt8} {caps : List Cap} {s' : Source} {e : Error} : take ⟨p, rest, caps⟩ = .error e s' →
    (e.reach rest.length = some n ∨ n < 0 ∧ e.reach rest.length = none) ∧
    ∀ caps', ∃ s'', take ⟨p, rest, caps'⟩ = .error e s''

/-- **Bytes are charged for before they are taken**, so a cap refuses first. -/
theorem TakesBytes.metered {take : Get α} {n : Int} (h : TakesBytes take n) (ht : told) :
    Metered (Source.meter told) (do charge n; take) := by
  have hfree (p : Int) (rest : List UInt8) : (do charge n; take : Get α) ⟨p, rest, []⟩ = take ⟨p, rest, []⟩ := rfl
  have hcapped (p : Int) (rest : List UInt8) (c : Cap) : (do charge n; take : Get α) ⟨p, rest, [c]⟩ =
      if c.left < n then .error (.inputOverCap c.limit) ⟨p, rest, [⟨c.limit, c.left - n⟩]⟩
      else take ⟨p, rest, [⟨c.limit, c.left - n⟩]⟩ := by
    rw [charge_bind_apply, Cap.chargeAll_singleton]
    by_cases hlt : c.left < n
    · simp only [if_pos hlt]
    · simp only [if_neg hlt]
  constructor
  · rintro ⟨p, rest, caps⟩ s' a rfl hr
    obtain ⟨hs', hn, hlen, -⟩ := h.ok ((hfree p rest).symm.trans hr)
    refine ⟨hs', ?_⟩
    simp only [Source.meter]
    omega
  · rintro ⟨p, rest, caps⟩ s' a c rfl hr hle
    obtain ⟨-, hn, hlen, htake⟩ := h.ok ((hfree p rest).symm.trans hr)
    simp only [Source.meter, hlen] at hle ⊢
    rw [hcapped, if_neg (by omega), htake]
    simp only [EStateM.Result.ok.injEq, Source.mk.injEq, List.cons.injEq, Cap.mk.injEq, true_and, and_true]
    omega
  · rintro ⟨p, rest, caps⟩ s' a c rfl hr h0 hlt
    obtain ⟨-, hn, hlen, -⟩ := h.ok ((hfree p rest).symm.trans hr)
    simp only [Source.meter, hlen] at hlt ⊢
    exact ⟨_, (hcapped p rest c).trans (if_pos (by omega))⟩
  · rintro ⟨p, rest, caps⟩ s' e c rfl hr h0
    obtain ⟨hreach, herror⟩ := h.error ((hfree p rest).symm.trans hr)
    simp only [Source.meter]
    by_cases hlt : c.left < n
    · have hn : e.reach rest.length = some n := by
        rcases hreach with hreach | ⟨hneg, -⟩
        · exact hreach
        · omega
      exact ⟨_, _, (hcapped p rest c).trans (if_pos hlt), .inr ⟨rfl, .inr ⟨ht, n, hn, hlt⟩⟩, fun _ => rfl⟩
    · obtain ⟨s'', htake⟩ := herror [⟨c.limit, c.left - n⟩]
      refine ⟨e, s'', ((hcapped p rest c).trans (if_neg hlt)).trans htake, .inl rfl, fun ⟨_, k, hk, hlt'⟩ => ?_⟩
      rcases hreach with hreach | ⟨-, hreach⟩
      · rw [hreach] at hk
        cases hk
        exact absurd hlt' hlt
      · rw [hreach] at hk
        cases hk

theorem takesBytes_takeByte : TakesBytes takeByte 1 := by
  constructor
  · rintro p (_ | ⟨b, rest⟩) caps s' a hr
    · cases hr
    · cases hr
      refine ⟨rfl, by decide, ?_, fun _ => rfl⟩
      simp
  · rintro p (_ | ⟨b, rest⟩) caps s' e hr
    · cases hr
      exact ⟨.inl rfl, fun _ => ⟨_, rfl⟩⟩
    · cases hr

theorem takesBytes_takeBytes (n : Int) : TakesBytes (takeBytes n true) n := by
  constructor
  · intro p rest caps s' a hr
    rw [takeBytes_apply] at hr
    split at hr
    · cases hr
    rename_i hneg
    split at hr
    · cases hr
    rename_i hlt
    cases hr
    refine ⟨rfl, not_lt.1 hneg, ?_, fun caps' => ?_⟩
    · rw [List.length_drop]
      omega
    · rw [takeBytes_apply, if_neg hneg, if_neg hlt]
  · intro p rest caps s' e hr
    rw [takeBytes_apply] at hr
    split at hr
    · rename_i hneg
      cases hr
      exact ⟨.inr ⟨hneg, rfl⟩, fun caps' => ⟨_, by rw [takeBytes_apply, if_pos hneg]⟩⟩
    rename_i hneg
    split at hr
    · rename_i hlt
      cases hr
      refine ⟨.inl ?_, fun caps' => ⟨_, by rw [takeBytes_apply, if_neg hneg, if_pos hlt]⟩⟩
      simp [Error.reach]
    · cases hr

theorem metered_readByte (ht : told) : Metered (Source.meter told) readByte := takesBytes_takeByte.metered ht

theorem metered_readBytes (n : Int) (ht : told) : Metered (Source.meter told) (readBytes n true) :=
  (takesBytes_takeBytes n).metered ht

/-- What is there of the bytes that are asked for. -/
theorem takeBytes_inexact {n : Int} (h0 : 0 ≤ n) (p : Int) (rest : List UInt8) (caps : List Cap) :
    takeBytes n false ⟨p, rest, caps⟩ =
      .ok (rest.take n.toNat) ⟨p + (rest.take n.toNat).length, rest.drop (rest.take n.toNat).length, caps⟩ := by
  change EStateM.bind (peekBytes n false) (fun bs => EStateM.bind (advance bs.length) fun _ => pure bs) _ = _
  simp only [EStateM.bind, peekBytes, if_neg (not_lt.2 h0), Bool.false_and, Bool.false_eq_true, if_false, advance]
  rfl

/-- No negative number of bytes can be asked for. -/
theorem takeBytes_of_neg {n : Int} (hneg : n < 0) (exact : Bool) (s : Source) :
    takeBytes n exact s = .error .negativeCount s := by
  change EStateM.bind (peekBytes n exact) (fun bs => EStateM.bind (advance bs.length) fun _ => pure bs) _ = _
  simp only [EStateM.bind, peekBytes, if_pos hneg]

/-- How reading all that is left goes behind a first cap, which hands what it has left to the caps behind it. -/
theorem readAll_cons (p : Int) (rest : List UInt8) (c : Cap) (cs : List Cap) :
    readAll ⟨p, rest, c :: cs⟩ =
      match Cap.chargeAll c.left cs with
      | (some limit, cs) => .error (.inputOverCap limit) ⟨p, rest, c :: cs⟩
      | (none, cs) =>
        if c.left < 0 then .error .negativeCount ⟨p, rest, c :: cs⟩
        else if rest.length ≤ c.left then .ok rest ⟨p + rest.length, [], ⟨c.limit, c.left - rest.length⟩ :: cs⟩
        else .error (.inputOverCap c.limit) ⟨p + c.left, rest.drop c.left.toNat, c :: cs⟩ := by
  have hread : readBytes c.left false ⟨p, rest, cs⟩ = _ := charge_bind_apply (takeBytes c.left false) c.left p rest cs
  change behindCap c (EStateM.bind (readBytes c.left false) _) _ _ = _
  rw [behindCap, EStateM.bind, hread]
  rcases Cap.chargeAll c.left cs with ⟨_ | limit, cs⟩
  · dsimp only
    by_cases hneg : c.left < 0
    · rw [takeBytes_of_neg hneg, if_pos hneg]
    rw [takeBytes_inexact (not_lt.1 hneg), if_neg hneg]
    by_cases hle : rest.length ≤ c.left
    · rw [List.take_of_length_le (by omega), List.drop_length, if_pos hle]
      rfl
    · have hlen : (rest.take c.left.toNat).length = c.left.toNat := by
        rw [List.length_take]
        omega
      have hpos : 0 < (rest.drop c.left.toNat).length := by
        rw [List.length_drop]
        omega
      obtain ⟨b, bs, hdrop⟩ := List.exists_cons_of_length_pos hpos
      rw [hlen, hdrop, Int.toNat_of_nonneg (not_lt.1 hneg), if_neg hle]
      rfl
  · rfl

/-- What reads all that is left, if it succeeds, leaves nothing. -/
theorem readAll_spec {s s' : Source} {bs : List UInt8} (hr : readAll s = .ok bs s') :
    bs = s.rest ∧ s'.position = s.position + s.rest.length ∧ s'.rest = [] := by
  obtain ⟨p, rest, caps⟩ := s
  cases caps with
  | nil =>
    cases hr
    exact ⟨rfl, rfl, rfl⟩
  | cons c cs =>
    rw [readAll_cons] at hr
    split at hr
    · cases hr
    split at hr
    · cases hr
    split at hr
    · cases hr
      exact ⟨rfl, rfl, rfl⟩
    · cases hr

theorem readAll_of_le {p : Int} {rest : List UInt8} {c : Cap} (hle : rest.length ≤ c.left) :
    readAll ⟨p, rest, [c]⟩ = .ok rest ⟨p + rest.length, [], [⟨c.limit, c.left - rest.length⟩]⟩ := by
  rw [readAll_cons]
  exact (if_neg (by omega)).trans (if_pos hle)

theorem exists_readAll_of_lt {p : Int} {rest : List UInt8} {c : Cap} (h0 : 0 ≤ c.left) (hlt : c.left < rest.length) :
    ∃ s, readAll ⟨p, rest, [c]⟩ = .error (.inputOverCap c.limit) s := by
  rw [readAll_cons]
  exact ⟨_, (if_neg (not_lt.2 h0)).trans (if_neg (not_le.2 hlt))⟩

/-- Behind a cap that has refused before, no number of bytes can be asked for. -/
theorem exists_readAll_of_neg {p : Int} {rest : List UInt8} {c : Cap} (hneg : c.left < 0) :
    ∃ s, readAll ⟨p, rest, [c]⟩ = .error .negativeCount s := by
  rw [readAll_cons]
  exact ⟨_, if_pos hneg⟩

theorem readAll_eq_ok {p : Int} {rest bs : List UInt8} {c : Cap} {s' : Source}
    (h : readAll ⟨p, rest, [c]⟩ = .ok bs s') :
    rest.length ≤ c.left ∧ bs = rest ∧ s' = ⟨p + rest.length, [], [⟨c.limit, c.left - rest.length⟩]⟩ := by
  by_cases hle : (rest.length : Int) ≤ c.left
  · rw [readAll_of_le hle] at h
    cases h
    exact ⟨hle, rfl, rfl⟩
  · obtain ⟨e, s, he⟩ : ∃ e s, readAll ⟨p, rest, [c]⟩ = .error e s := by
      by_cases hneg : c.left < 0
      · exact ⟨_, exists_readAll_of_neg hneg⟩
      · exact ⟨_, exists_readAll_of_lt (not_lt.1 hneg) (not_le.1 hle)⟩
    rw [he] at h
    cases h

/-- All that is left is read if that is no more than the cap has left. -/
theorem metered_readAll : Metered (Source.meter told) readAll := by
  constructor
  · rintro ⟨p, rest, caps⟩ s' a rfl hr
    cases hr
    refine ⟨rfl, ?_⟩
    simp [Source.meter]
  · rintro ⟨p, rest, caps⟩ s' a c rfl hr hle
    cases hr
    simp only [Source.meter, List.length_nil] at hle ⊢
    rw [readAll_of_le (by omega)]
    simp
  · rintro ⟨p, rest, caps⟩ s' a c rfl hr h0 hlt
    cases hr
    simp only [Source.meter, List.length_nil] at hlt ⊢
    exact exists_readAll_of_lt h0 (by omega)
  · rintro ⟨p, rest, caps⟩ s' e c rfl hr
    cases hr

theorem metered_pad (a : Nat) (ht : told) : Metered (Source.meter told) (pad a) := by
  refine metered_position.bind fun p => ?_
  simp only
  split
  · exact metered_pure ()
  · exact (metered_readBytes _ ht).map

theorem metered_int (f : Integer.Format) (ht : told) : Metered (Source.meter told) (int f) :=
  (metered_readBytes _ ht).map

theorem metered_boolean (w : Nat) (o : ByteOrder) (ht : told) : Metered (Source.meter told) (boolean w o) := by
  refine (metered_int _ ht).bind fun n => ?_
  split
  · exact metered_pure _
  split
  · exact metered_pure _
  · exact metered_fail fun _ _ => rfl

theorem metered_double (o : ByteOrder) (ht : told) : Metered (Source.meter told) (double o) :=
  (metered_readBytes _ ht).map

theorem metered_fail_bind {d : DecodeError} {next : α → Get β}
    (hd : told → ∀ size, (Error.decode d).reach size = none) :
    Metered (Source.meter told) ((fail d : Get α) >>= next) := metered_fail hd

theorem reach_of_mapError {r : Except DecodeError α} {e : Error}
    (hr : ∀ d, r = .error d → ∀ size, (Error.decode d).reach size = none) (h : r.mapError .decode = .error e)
    (size : Int) : e.reach size = none := by
  cases r with
  | error d =>
    cases h
    exact hr d rfl size
  | ok a => cases h

theorem metered_chars (w : Nat) (o : ByteOrder) (ht : told) : Metered (Source.meter told) (chars w o) := by
  have hchars (bs : List UInt8) : Metered (Source.meter told) (ofExcept ((charsOfBytes bs).mapError .decode)) := by
    refine metered_ofExcept fun _ e he => reach_of_mapError (fun d hd size => ?_) he
    unfold charsOfBytes at hd
    split at hd
    · cases hd
      rfl
    · cases hu : Utf8.decode bs with
      | error f =>
        rw [hu] at hd
        cases hd
        rfl
      | ok cs =>
        rw [hu] at hd
        cases hd
  unfold chars
  by_cases hw : w = 0
  · simp only [if_pos hw]
    refine metered_readAll.bind fun bs => ?_
    split
    · exact metered_fail_bind fun _ _ => rfl
    · exact hchars _
  · simp only [if_neg hw]
    refine (metered_int _ ht).bind fun n => (metered_readBytes n ht).bind fun bs => ?_
    refine (metered_readByte ht).bind fun b => ?_
    split
    · exact metered_fail_bind fun _ _ => rfl
    · exact hchars _

theorem metered_string (w : Nat) (o : ByteOrder) (ht : told) : Metered (Source.meter told) (string w o) :=
  (metered_chars w o ht).map

theorem metered_objectPath (w : Nat) (o : ByteOrder) (ht : told) : Metered (Source.meter told) (objectPath w o) := by
  refine (metered_string w o ht).bind fun s => ?_
  split
  · exact metered_pure s
  · exact metered_fail fun _ _ => rfl

theorem metered_signature (prefixed : Bool) (format : Option WireFormat) (ht : told) :
    Metered (Source.meter told) (signature prefixed format) := by
  refine metered_remaining.bind fun n => ?_
  simp only
  split
  · exact metered_fail_bind fun _ _ => rfl
  refine (metered_string _ .little ht).bind fun s => ?_
  cases Signature.parseAll { format } (Text.ofString s) with
  | error e => exact metered_fail fun _ _ => rfl
  | ok ts => exact metered_pure s

end Get

end Marshal
