import Marshal.Proofs.Metering
import Marshal.Script.Read
/-!
# What caps allow over any use of a source

`Get.Spends` says of one reader what it takes from the bytes that the caps still let pass, whether it succeeds or
fails. All readers of bytes keep to it but one. Reading all that is left behind a cap takes what the cap has left, and
only then finds that there is more and fails; it is not charged for what it took, so it can be done again, and other
reads can follow it. Hence two bounds for scripts (`ReadStep.sourceAfter_within_cap`): what calls give is never more than
the cap, but how far the source goes also depends on how often that happened.
-/
namespace Marshal

namespace Get

/-- What a reader takes from what its caps allow, where `size` counts the bytes in what it gives. -/
structure Spends {α : Type} (get : Get α) (size : α → Nat) : Prop where
  ok {k : Int} {s s' : Source} {a : α} : 0 ≤ k → Cap.AtMost k s.caps → get s = .ok a s' →
    s'.position = s.position + size a ∧ size a ≤ k ∧ Cap.AtMost (k - size a) s'.caps
  error {k : Int} {s s' : Source} {e : Error} : 0 ≤ k → Cap.AtMost k s.caps → get s = .error e s' →
    s'.position = s.position ∧ Cap.AtMost k s'.caps
  /-- Once a cap has refused, nothing passes any more. -/
  refused {s s' : Source} {limit : Int} : get s = .error (.inputOverCap limit) s' →
    s'.position = s.position ∧ Cap.AtMost 0 s'.caps

variable {α β : Type} {get : Get α} {size : α → Nat}

/-- A reader that leaves the source as it is. -/
theorem spends_look (hok : ∀ {s a s'}, get s = .ok a s' → s' = s)
    (herror : ∀ {s e s'}, get s = .error e s' → s' = s ∧ ∀ limit, e ≠ .inputOverCap limit) :
    Spends get fun _ => 0 where
  ok hk hs hr := by
    cases hok hr
    rw [Nat.cast_zero, add_zero, sub_zero]
    exact ⟨rfl, hk, hs⟩
  error _ hs hr := by
    obtain ⟨rfl, -⟩ := herror hr
    exact ⟨rfl, hs⟩
  refused hr := absurd rfl ((herror hr).2 _)

/-- **What is asked for is charged for first**, and no more than that is taken. -/
theorem spends_charge_bind {n : Int} (hn : 0 ≤ n)
    (hok : ∀ {s a s'}, get s = .ok a s' → s'.position = s.position + size a ∧ size a ≤ n ∧ s'.caps = s.caps)
    (herror : ∀ {s e s'}, get s = .error e s' → s' = s ∧ ∀ limit, e ≠ .inputOverCap limit) :
    Spends (do charge n; get) size where
  ok := by
    rintro k ⟨p, rest, caps⟩ s' a hk hs hr
    rw [charge_bind_apply] at hr
    split at hr
    · rename_i hc
      obtain ⟨hnk, hs'⟩ := hs.of_chargeAll hc
      obtain ⟨hp, hle, hcaps⟩ := hok hr
      rw [hcaps]
      exact ⟨hp, hle.trans hnk, hs'.mono (by omega)⟩
    · cases hr
  error := by
    rintro k ⟨p, rest, caps⟩ s' e hk hs hr
    rw [charge_bind_apply] at hr
    split at hr
    · rename_i hc
      obtain ⟨-, hs'⟩ := hs.of_chargeAll hc
      obtain ⟨rfl, -⟩ := herror hr
      exact ⟨rfl, hs'.mono (by omega)⟩
    · rename_i hc
      cases hr
      exact ⟨rfl, (Cap.atMost_zero_of_chargeAll hc).mono hk⟩
  refused := by
    rintro ⟨p, rest, caps⟩ s' limit hr
    rw [charge_bind_apply] at hr
    split at hr
    · exact absurd rfl ((herror hr).2 _)
    · rename_i hc
      cases hr
      exact ⟨rfl, Cap.atMost_zero_of_chargeAll hc⟩

theorem Spends.map {f : α → β} {size' : β → Nat} (h : Spends get size) (hsize : ∀ a, size' (f a) = size a) :
    Spends (get >>= fun a => pure (f a)) size' where
  ok hk hs hr := by
    obtain ⟨a, s₁, h1, h2⟩ := bind_eq_ok.1 hr
    cases h2
    rw [hsize]
    exact h.ok hk hs h1
  error hk hs hr := by
    rcases bind_eq_error.1 hr with h1 | ⟨a, s₁, -, h2⟩
    · exact h.error hk hs h1
    · cases h2
  refused hr := by
    rcases bind_eq_error.1 hr with h1 | ⟨a, s₁, -, h2⟩
    · exact h.refused h1
    · cases h2

theorem spends_peekByte : Spends peekByte fun _ => 0 := by
  refine spends_look ?_ ?_
  · intro s a s' hr
    unfold peekByte at hr
    split at hr <;> cases hr
    rfl
  · intro s e s' hr
    unfold peekByte at hr
    split at hr <;> cases hr
    exact ⟨rfl, nofun⟩

theorem spends_peekBytes (n : Int) (exact : Bool) : Spends (peekBytes n exact) fun _ => 0 := by
  refine spends_look ?_ ?_
  · intro s bs s' hr
    unfold peekBytes at hr
    dsimp only at hr
    split_ifs at hr
    cases hr
    rfl
  · intro s e s' hr
    unfold peekBytes at hr
    dsimp only at hr
    split_ifs at hr <;> (cases hr; exact ⟨rfl, nofun⟩)

theorem spends_readByte : Spends readByte fun _ => 1 := by
  refine spends_charge_bind (by decide) ?_ ?_
  · rintro ⟨p, _ | ⟨b, rest⟩, caps⟩ a s' hr <;> cases hr
    exact ⟨rfl, le_rfl, rfl⟩
  · rintro ⟨p, _ | ⟨b, rest⟩, caps⟩ e s' hr <;> cases hr
    exact ⟨rfl, nofun⟩

theorem spends_readBytes {n : Int} (hn : 0 ≤ n) (exact : Bool) : Spends (readBytes n exact) List.length := by
  refine spends_charge_bind hn ?_ ?_
  · rintro ⟨p, rest, caps⟩ bs s' hr
    cases exact with
    | false =>
      cases (takeBytes_inexact hn p rest caps).symm.trans hr
      refine ⟨rfl, ?_, rfl⟩
      rw [List.length_take]
      omega
    | true =>
      rw [takeBytes_apply, if_neg (not_lt.2 hn)] at hr
      split at hr
      · cases hr
      cases hr
      rw [List.length_take]
      dsimp only
      exact ⟨by omega, by omega, rfl⟩
  · rintro ⟨p, rest, caps⟩ e s' hr
    cases exact with
    | false => cases (takeBytes_inexact hn p rest caps).symm.trans hr
    | true =>
      rw [takeBytes_apply, if_neg (not_lt.2 hn)] at hr
      split at hr <;> cases hr
      exact ⟨rfl, nofun⟩

/-- Reading all that is left takes no more than is allowed. -/
theorem ok_of_readAll {k : Int} {s s' : Source} {bs : List UInt8} (hs : Cap.AtMost k s.caps)
    (hr : readAll s = .ok bs s') :
    s'.position = s.position + bs.length ∧ bs.length ≤ k ∧ Cap.AtMost (k - bs.length) s'.caps := by
  obtain ⟨p, rest, _ | ⟨c, cs⟩⟩ := s
  · exact absurd hs.choose_spec.1 List.not_mem_nil
  rw [readAll_cons] at hr
  split at hr
  · cases hr
  rename_i cs' hc
  split_ifs at hr with hneg hle
  cases hr
  exact ⟨rfl, hle.trans (hs.left_le hc), Cap.atMost_head (sub_le_sub_right (hs.left_le hc) _)⟩

/-- **When reading all that is left fails it is not charged**, and yet it may have gone as far as was allowed. -/
theorem error_of_readAll {k : Int} {s s' : Source} {e : Error} (hk : 0 ≤ k) (hs : Cap.AtMost k s.caps)
    (hr : readAll s = .error e s') : Cap.AtMost k s'.caps ∧
      (s'.position = s.position ∨ ∃ limit, e = .inputOverCap limit ∧ s.position ≤ s'.position ∧
        s'.position ≤ s.position + k) := by
  obtain ⟨p, rest, _ | ⟨c, cs⟩⟩ := s
  · cases hr
  rw [readAll_cons] at hr
  split at hr
  · rename_i hc
    cases hr
    exact ⟨((Cap.atMost_zero_of_chargeAll hc).mono hk).cons c, .inl rfl⟩
  rename_i cs' hc
  have hleft := hs.left_le hc
  split_ifs at hr with hneg hle <;> cases hr
  · exact ⟨Cap.atMost_head hleft, .inl rfl⟩
  · exact ⟨Cap.atMost_head hleft, .inr ⟨_, rfl, le_add_of_nonneg_right (not_lt.1 hneg), add_le_add_right hleft p⟩⟩

/-- A refusal before anything was read is for good. -/
theorem refused_of_readAll {s s' : Source} {limit : Int} (hr : readAll s = .error (.inputOverCap limit) s')
    (hstill : s'.position = s.position) : Cap.AtMost 0 s'.caps := by
  obtain ⟨p, rest, _ | ⟨c, cs⟩⟩ := s
  · cases hr
  rw [readAll_cons] at hr
  split at hr
  · rename_i hc
    cases hr
    exact (Cap.atMost_zero_of_chargeAll hc).cons c
  split_ifs at hr <;> cases hr
  exact Cap.atMost_head (add_eq_left.1 hstill).le

end Get

namespace ReadStep

/-- The calls that read bytes or look at what is there, with no negative number of bytes asked for. -/
def isCall : ReadStep → Bool
  | .readByte | .peekByte | .remaining | .isEmpty | .position | .peekBytes .. | .readAll => true
  | .readBytes n _ => 0 ≤ n
  | _ => false

/-- How many bytes a call has read and given. -/
def given : ReadStep → Except Error Answer → Nat
  | .readByte, .ok _ => 1
  | .readBytes .., .ok (.bytes bs) => bs.length
  | .readAll, .ok (.bytes bs) => bs.length
  | _, _ => 0

/-- One for a call that read all it could and then found that there is more than a cap allows. -/
def overrun : ReadStep → Except Error Answer → Nat
  | .readAll, .error (.inputOverCap _) => 1
  | _, _ => 0

variable {step : ReadStep} {k N : Int} {s s' : Source} {a : Answer} {e : Error}

theorem spends (hcall : step.isCall) (hne : step ≠ .readAll) :
    Get.Spends step.get fun a => step.given (.ok a) := by
  cases step with
  | readByte => exact Get.spends_readByte.map fun _ => rfl
  | peekByte => exact Get.spends_peekByte.map fun _ => rfl
  | remaining | isEmpty | position => exact Get.spends_look (fun hr => by cases hr; rfl) nofun
  | readBytes n exact => exact (Get.spends_readBytes (of_decide_eq_true hcall) exact).map fun _ => rfl
  | peekBytes n exact => exact (Get.spends_peekBytes n exact).map fun _ => rfl
  | readAll => exact absurd rfl hne
  | _ => cases hcall

theorem ok_of_isCall (hcall : step.isCall) (hk : 0 ≤ k) (hs : Cap.AtMost k s.caps) (hr : step.get s = .ok a s') :
    s'.position = s.position + step.given (.ok a) ∧ step.given (.ok a) ≤ k ∧
      Cap.AtMost (k - step.given (.ok a)) s'.caps := by
  by_cases hne : step = .readAll
  · subst hne
    obtain ⟨bs, s₁, h1, h2⟩ := bind_eq_ok.1 hr
    cases h2
    exact Get.ok_of_readAll hs h1
  · exact (spends hcall hne).ok hk hs hr

theorem error_of_isCall (hcall : step.isCall) (hk : 0 ≤ k) (hs : Cap.AtMost k s.caps)
    (hr : step.get s = .error e s') : Cap.AtMost k s'.caps ∧ s.position ≤ s'.position ∧
      s'.position ≤ s.position + step.overrun (.error e) * k := by
  by_cases hne : step = .readAll
  · subst hne
    rcases bind_eq_error.1 hr with h1 | ⟨bs, s₁, -, h2⟩
    · obtain ⟨hs', heq | ⟨limit, rfl, hle, hlt⟩⟩ := Get.error_of_readAll hk hs h1
      · rw [heq]
        exact ⟨hs', le_rfl, le_add_of_nonneg_right (mul_nonneg (Nat.cast_nonneg _) hk)⟩
      · rw [overrun, Nat.cast_one, one_mul]
        exact ⟨hs', hle, hlt⟩
    · cases h2
  · obtain ⟨heq, hs'⟩ := (spends hcall hne).error hk hs hr
    rw [heq]
    exact ⟨hs', le_rfl, le_add_of_nonneg_right (mul_nonneg (Nat.cast_nonneg _) hk)⟩

/-- A call that was refused before it read anything leaves nothing to be read. -/
theorem refused_of_isCall {limit : Int} (hcall : step.isCall) (hr : step.get s = .error (.inputOverCap limit) s')
    (hstill : step ≠ .readAll ∨ s'.position = s.position) : s'.position = s.position ∧ Cap.AtMost 0 s'.caps := by
  by_cases hne : step = .readAll
  · subst hne
    have hpos := hstill.resolve_left (not_not_intro rfl)
    rcases bind_eq_error.1 hr with h1 | ⟨bs, s₁, -, h2⟩
    · exact ⟨hpos, Get.refused_of_readAll h1 hpos⟩
    · cases h2
  · exact (spends hcall hne).refused hr

/-! ## Scripts that read -/

/-- The source after steps in turn, whether they succeeded or failed. -/
def sourceAfter (steps : List ReadStep) (s : Source) : Source := (Get.script (steps.map get) s).2

/-- What is counted of each step of a script and of its outcome, in total. -/
def total (count : ReadStep → Except Error Answer → Nat) (steps : List ReadStep) (s : Source) : Nat :=
  ((steps.zip (Get.script (steps.map get) s).1).map fun (step, outcome, _) => count step outcome).sum

variable {count : ReadStep → Except Error Answer → Nat} {steps : List ReadStep}

theorem sourceAfter_of_ok (hr : step.get s = .ok a s') : sourceAfter (step :: steps) s = sourceAfter steps s' := by
  rw [sourceAfter, List.map_cons, Get.script, hr]
  rfl

theorem sourceAfter_of_error (hr : step.get s = .error e s') :
    sourceAfter (step :: steps) s = sourceAfter steps s' := by
  rw [sourceAfter, List.map_cons, Get.script, hr]
  rfl

theorem total_of_ok (hr : step.get s = .ok a s') :
    total count (step :: steps) s = count step (.ok a) + total count steps s' := by
  rw [total, List.map_cons, Get.script, hr]
  rfl

theorem total_of_error (hr : step.get s = .error e s') :
    total count (step :: steps) s = count step (.error e) + total count steps s' := by
  rw [total, List.map_cons, Get.script, hr]
  rfl

/-- What calls give is no more than is allowed, and they go no further than that, but for those that read all they could
and then failed. -/
theorem total_le : ∀ {steps : List ReadStep} {s : Source} {k : Int}, (∀ step ∈ steps, step.isCall) → 0 ≤ k → k ≤ N →
    Cap.AtMost k s.caps →
      total given steps s ≤ k ∧ s.position + total given steps s ≤ (sourceAfter steps s).position ∧
        (sourceAfter steps s).position ≤ s.position + total given steps s + total overrun steps s * N
  | [], s, k, _, hk, _, _ => by
    rw [total, total, sourceAfter]
    simp [Get.script, hk]
  -- What is allowed goes down by what a call gives; an overrun goes on by no more than is allowed then, so by `N`.
  | step :: steps, s, k, hcalls, hk, hkN, hs => by
    obtain ⟨hcall, hcalls⟩ := List.forall_mem_cons.1 hcalls
    cases hr : step.get s with
    | ok a s' =>
      obtain ⟨hp, hle, hs'⟩ := ok_of_isCall hcall hk hs hr
      obtain ⟨h1, h2, h3⟩ := total_le hcalls (by omega) (by omega) hs'
      have hover : step.overrun (.ok a) = 0 := by
        cases step <;> rfl
      rw [sourceAfter_of_ok hr, total_of_ok hr, total_of_ok hr, hover, Nat.zero_add]
      push_cast
      exact ⟨by omega, by omega, by omega⟩
    | error e s' =>
      obtain ⟨hs', hle, hp⟩ := error_of_isCall hcall hk hs hr
      obtain ⟨h1, h2, h3⟩ := total_le hcalls hk hkN hs'
      have hgiven : step.given (.error e) = 0 := by
        cases step <;> rfl
      have hpN := hp.trans (add_le_add_right (mul_le_mul_of_nonneg_left hkN (Nat.cast_nonneg _)) s.position)
      rw [sourceAfter_of_error hr, total_of_error hr, total_of_error hr, hgiven, Nat.zero_add]
      push_cast
      rw [add_mul]
      exact ⟨by omega, by omega, by omega⟩

/-- **What reads behind a cap give is never more than the cap**, over any calls, failures included, and the source goes
no further than that, except that each time reading all that is left fails it may go on by the cap once more. A refusal
before anything was read is for good. -/
theorem sourceAfter_within_cap (s : Source) {N : Int} (hN : 0 ≤ N) {steps : List ReadStep}
    (hcalls : ∀ step ∈ steps, step.isCall) :
    let s₀ : Source := { s with caps := Cap.new N :: s.caps }
    total given steps s₀ ≤ N ∧ s.position + total given steps s₀ ≤ (sourceAfter steps s₀).position ∧
      (sourceAfter steps s₀).position ≤ s.position + total given steps s₀ + total overrun steps s₀ * N ∧
      ∀ before step after limit s', steps = before ++ step :: after →
        get step (sourceAfter before s₀) = .error (.inputOverCap limit) s' →
        (step ≠ .readAll ∨ s'.position = (sourceAfter before s₀).position) →
        total given after s' = 0 ∧ (sourceAfter after s').position = (sourceAfter before s₀).position := by
  intro s₀
  obtain ⟨h1, h2, h3⟩ := total_le (s := s₀) hcalls hN le_rfl (Cap.atMost_head le_rfl)
  refine ⟨h1, h2, h3, ?_⟩
  rintro before step after limit s' rfl hr hstill
  obtain ⟨hcall, hafter⟩ := List.forall_mem_cons.1 (List.forall_mem_append.1 hcalls).2
  obtain ⟨hpos, hs'⟩ := refused_of_isCall hcall hr hstill
  obtain ⟨h4, h5, h6⟩ := total_le hafter le_rfl le_rfl hs'
  rw [← hpos]
  omega

/-- Two bytes are one too many, and from then on the cap gives nothing, not even the one byte that it had left. -/
theorem sourceAfter_within_cap_refused :
    let s : Source := { position := 6, rest := [1, 2, 3, 4], caps := [Cap.new 3] }
    let s₀ : Source := { s with caps := Cap.new 2 :: s.caps }
    let before : List ReadStep := [.readBytes 1 true, .peekBytes 5 false]
    let after : List ReadStep := [.readByte, .readAll]
    let s' : Source := { position := 7, rest := [2, 3, 4], caps := [⟨2, -1⟩, ⟨3, 2⟩] }
    total given (before ++ .readBytes 2 true :: after) s₀ ≤ (2 : Int) ∧
      get (.readBytes 2 true) (sourceAfter before s₀) = .error (.inputOverCap 2) s' ∧
      total given after s' = 0 ∧ (sourceAfter after s').position = (sourceAfter before s₀).position := by
  intro s s₀ before after s'
  have hcalls : ∀ step ∈ before ++ .readBytes 2 true :: after, isCall step := by decide
  obtain ⟨hle, -, -, hrefused⟩ := sourceAfter_within_cap s (by decide : (0 : Int) ≤ 2) hcalls
  have hr : get (.readBytes 2 true) (sourceAfter before s₀) = .error (.inputOverCap 2) s' := rfl
  exact ⟨hle, hr, hrefused before _ after 2 s' rfl hr (.inl nofun)⟩

/-- Behind a cap of one byte, reading all of two bytes fails and takes the first; the second can still be read. -/
theorem sourceAfter_beyond_cap :
    let s₀ : Source := { rest := [1, 2], caps := [Cap.new 1] }
    get .readAll s₀ = .error (.inputOverCap 1) (sourceAfter [.readAll] s₀) ∧
      get .readByte (sourceAfter [.readAll] s₀) = .ok (.count 2) (sourceAfter [.readAll, .readByte] s₀) ∧
      (sourceAfter [.readAll, .readByte] s₀).position = 2 := ⟨rfl, rfl, rfl⟩

end ReadStep

end Marshal
