import Marshal.Proofs.Script.Read
/-!
# No byte is lost or given twice

What is read of an input that no cap is put on, over any calls in any order, failures included. `Get.Hands` says of one
reader that the bytes it gives are those it takes from the front, and that it takes none when it fails; a reader that
only looks hands out nothing. Calls in turn then split the input into what they have given and what is left
(`ReadStep.gathered_append_rest`). There is no condition on the numbers that calls ask for: a negative one fails.
-/
namespace Marshal

namespace Get

/-- The bytes in what a reader gives, told by `bytes`, are those that it takes. It takes none when it fails. -/
structure Hands {α : Type} (get : Get α) (bytes : α → List UInt8) : Prop where
  ok {p : Int} {data : List UInt8} {a : α} {s : Source} : get ⟨p, data, []⟩ = .ok a s →
    ∃ rest, data = bytes a ++ rest ∧ s = ⟨p + (bytes a).length, rest, []⟩
  error {p : Int} {data : List UInt8} {e : Error} {s : Source} : get ⟨p, data, []⟩ = .error e s → s = ⟨p, data, []⟩

variable {α β : Type} {get : Get α} {bytes : α → List UInt8}

theorem Hands.map {f : α → β} {bytes' : β → List UInt8} (h : Hands get bytes) (hbytes : ∀ a, bytes' (f a) = bytes a) :
    Hands (get >>= fun a => pure (f a)) bytes' where
  ok hr := by
    obtain ⟨a, s₁, h1, h2⟩ := bind_eq_ok.1 hr
    cases h2
    rw [hbytes]
    exact h.ok h1
  error hr := by
    rcases bind_eq_error.1 hr with h1 | ⟨a, s₁, -, h2⟩
    · exact h.error h1
    · cases h2

/-- A reader that leaves the source as it is. -/
theorem hands_look (hok : ∀ {s a s'}, get s = .ok a s' → s' = s) (herror : ∀ {s e s'}, get s = .error e s' → s' = s) :
    Hands get fun _ => [] where
  ok {p data _ _} hr := ⟨data, rfl, by rw [hok hr, List.length_nil, Nat.cast_zero, add_zero]⟩
  error := herror

theorem hands_peekByte : Hands peekByte fun _ => [] := by
  refine hands_look ?_ ?_ <;> rintro ⟨p, _ | ⟨b, rest⟩, caps⟩ _ s' hr <;> cases hr <;> rfl

theorem hands_peekBytes (n : Int) (exact : Bool) : Hands (peekBytes n exact) fun _ => [] := by
  refine hands_look ?_ ?_
  · intro s bs s' hr
    unfold peekBytes at hr
    dsimp only at hr
    split_ifs at hr
    cases hr
    rfl
  · intro s e s' hr
    unfold peekBytes at hr
    dsimp only at hr
    split_ifs at hr <;> (cases hr; rfl)

theorem hands_readByte : Hands readByte fun b => [b] where
  ok {p data b s} hr := by
    cases data <;> cases hr
    exact ⟨_, rfl, rfl⟩
  error {p data e s} hr := by
    cases data <;> cases hr
    rfl

/-- Bytes that are asked for fail as a whole, or they are the first ones, as far as there are any. -/
theorem readBytes_cases (n : Int) (exact : Bool) (p : Int) (data : List UInt8) :
    (∃ e, readBytes n exact ⟨p, data, []⟩ = .error e ⟨p, data, []⟩) ∨
      readBytes n exact ⟨p, data, []⟩ =
        .ok (data.take n.toNat) ⟨p + (data.take n.toNat).length, data.drop n.toNat, []⟩ := by
  change (∃ e, takeBytes n exact ⟨p, data, []⟩ = _) ∨ takeBytes n exact ⟨p, data, []⟩ = _
  by_cases hneg : n < 0
  · exact .inl ⟨_, takeBytes_of_neg hneg exact _⟩
  cases exact with
  | false =>
    refine .inr ((takeBytes_inexact (not_lt.1 hneg) p data []).trans ?_)
    rw [List.length_take, List.drop_eq_drop_iff.2 (by omega : _ = min n.toNat data.length)]
  | true =>
    rw [takeBytes_apply, if_neg hneg]
    split
    · exact .inl ⟨_, rfl⟩
    · right
      rw [List.length_take_of_le (by omega), Int.toNat_of_nonneg (not_lt.1 hneg)]

theorem hands_readBytes (n : Int) (exact : Bool) : Hands (readBytes n exact) id where
  ok {p data bs s} hr := by
    obtain ⟨e, he⟩ | hok := readBytes_cases n exact p data
    · cases he.symm.trans hr
    · cases hok.symm.trans hr
      exact ⟨_, (List.take_append_drop n.toNat data).symm, rfl⟩
  error {p data e s} hr := by
    obtain ⟨e', he⟩ | hok := readBytes_cases n exact p data
    · cases he.symm.trans hr
      rfl
    · cases hok.symm.trans hr

theorem hands_readAll : Hands readAll id where
  ok {p data bs s} hr := by
    cases hr
    exact ⟨[], (List.append_nil data).symm, rfl⟩
  error hr := by cases hr

end Get

namespace ReadStep

/-- The calls that only look at what is there. -/
def isPeek : ReadStep → Bool
  | .peekByte | .peekBytes .. => true
  | _ => false

/-- The calls that read bytes or look at them, whatever number of bytes they ask for. -/
def isUse : ReadStep → Bool
  | .readByte | .readBytes .. | .readAll => true
  | step => step.isPeek

/-- The bytes that a call has read and given. -/
def returned : ReadStep → Except Error Answer → List UInt8
  | .readByte, .ok (.count n) => [UInt8.ofNat n.toNat]
  | .readBytes .., .ok (.bytes bs) => bs
  | .readAll, .ok (.bytes bs) => bs
  | _, _ => []

/-- The bytes that calls in turn have read and given, in that order. -/
def gathered (steps : List ReadStep) (s : Source) : List UInt8 :=
  (steps.zip (Get.script (steps.map get) s).1).flatMap fun (step, outcome, _) => returned step outcome

variable {step : ReadStep} {steps : List ReadStep} {s s' : Source} {a : Answer} {e : Error} {p : Int}
  {data : List UInt8}

theorem gathered_of_ok (hr : step.get s = .ok a s') :
    gathered (step :: steps) s = returned step (.ok a) ++ gathered steps s' := by
  rw [gathered, List.map_cons, Get.script, hr]
  rfl

theorem gathered_of_error (hr : step.get s = .error e s') :
    gathered (step :: steps) s = returned step (.error e) ++ gathered steps s' := by
  rw [gathered, List.map_cons, Get.script, hr]
  rfl

theorem sourceAfter_append : ∀ (before after : List ReadStep) (s : Source),
    sourceAfter (before ++ after) s = sourceAfter after (sourceAfter before s)
  | [], _, _ => rfl
  | step :: before, after, s => by
    cases hr : step.get s with
    | ok a s' => rw [List.cons_append, sourceAfter_of_ok hr, sourceAfter_of_ok hr, sourceAfter_append before]
    | error e s' => rw [List.cons_append, sourceAfter_of_error hr, sourceAfter_of_error hr, sourceAfter_append before]

theorem returned_error (step : ReadStep) (e : Error) : returned step (.error e) = [] := by
  cases step <;> rfl

theorem returned_of_isPeek (hpeek : step.isPeek) (outcome : Except Error Answer) : returned step outcome = [] := by
  cases step with
  | peekByte | peekBytes n exact => rfl
  | _ => cases hpeek

/-- Every call hands out what it takes. -/
theorem hands (huse : step.isUse) : Get.Hands step.get fun a => returned step (.ok a) := by
  cases step with
  | readByte => exact Get.hands_readByte.map fun b => by simp [returned]
  | peekByte => exact Get.hands_peekByte.map fun _ => rfl
  | readBytes n exact => exact (Get.hands_readBytes n exact).map fun _ => rfl
  | peekBytes n exact => exact (Get.hands_peekBytes n exact).map fun _ => rfl
  | readAll => exact Get.hands_readAll.map fun _ => rfl
  | _ => cases huse

/-- A call, whether it succeeds or fails, splits the input into what it gives and what it leaves to the next ones. -/
theorem exists_split (huse : step.isUse) (p : Int) (data : List UInt8) : ∃ bs rest, data = bs ++ rest ∧ ∀ steps,
    gathered (step :: steps) ⟨p, data, []⟩ = bs ++ gathered steps ⟨p + bs.length, rest, []⟩ ∧
      sourceAfter (step :: steps) ⟨p, data, []⟩ = sourceAfter steps ⟨p + bs.length, rest, []⟩ := by
  cases hr : step.get ⟨p, data, []⟩ with
  | ok a s' =>
    obtain ⟨rest, hdata, rfl⟩ := (hands huse).ok hr
    exact ⟨_, rest, hdata, fun steps => ⟨gathered_of_ok hr, sourceAfter_of_ok hr⟩⟩
  | error e s' =>
    obtain rfl := (hands huse).error hr
    refine ⟨[], data, rfl, fun steps => ?_⟩
    rw [List.length_nil, Nat.cast_zero, add_zero, List.nil_append]
    exact ⟨(gathered_of_error hr).trans (by rw [returned_error, List.nil_append]), sourceAfter_of_error hr⟩

theorem exists_rest : ∀ {steps : List ReadStep} (p : Int) (data : List UInt8), (∀ step ∈ steps, step.isUse) →
    ∃ rest, data = gathered steps ⟨p, data, []⟩ ++ rest ∧
      sourceAfter steps ⟨p, data, []⟩ = ⟨p + (gathered steps ⟨p, data, []⟩).length, rest, []⟩
  | [], p, data, _ => ⟨data, rfl, by simp [gathered, sourceAfter, Get.script]⟩
  | step :: steps, p, data, huse => by
    obtain ⟨hstep, hsteps⟩ := List.forall_mem_cons.1 huse
    obtain ⟨bs, rest, rfl, hsplit⟩ := exists_split hstep p data
    obtain ⟨hgathered, hafter⟩ := hsplit steps
    obtain ⟨last, hrest, hlast⟩ := exists_rest (p + bs.length) rest hsteps
    rw [hgathered, hafter, hlast, List.length_append, Nat.cast_add, ← add_assoc]
    exact ⟨last, by rw [List.append_assoc, ← hrest], rfl⟩

/-- A call that only looks, or that fails, leaves the source as it is. -/
theorem sourceAfter_still (huse : step.isUse) (hstill : step.isPeek ∨ ∃ e s', step.get ⟨p, data, []⟩ = .error e s') :
    sourceAfter [step] ⟨p, data, []⟩ = ⟨p, data, []⟩ := by
  have hgathered : gathered [step] ⟨p, data, []⟩ = [] := by
    cases hr : step.get ⟨p, data, []⟩ with
    | ok a s' =>
      obtain hpeek | ⟨e, s'', hr'⟩ := hstill
      · rw [gathered_of_ok hr, returned_of_isPeek hpeek]
        rfl
      · cases hr.symm.trans hr'
    | error e s' =>
      rw [gathered_of_error hr, returned_error]
      rfl
  obtain ⟨rest, hdata, hafter⟩ := exists_rest p data (List.forall_mem_singleton.2 huse)
  rw [hgathered] at hdata hafter
  obtain rfl : data = rest := hdata
  rw [hafter, List.length_nil, Nat.cast_zero, add_zero]

/-- **What calls have given and what is left are together the input**, over any calls, failures included. The position
has moved by as many bytes as they have given, as many are left as they have not given, and nothing is left exactly when
they have given all. Calls that only look, and calls that fail, leave everything as it is. -/
theorem gathered_append_rest (p : Int) (data : List UInt8) {steps : List ReadStep}
    (huse : ∀ step ∈ steps, step.isUse) :
    let s₀ : Source := { position := p, rest := data }
    let s := sourceAfter steps s₀
    gathered steps s₀ ++ s.rest = data ∧
      Get.position s = .ok (p + (gathered steps s₀).length) s ∧
      Get.remaining s = .ok (data.length - (gathered steps s₀).length) s ∧
      (Get.finish s = .ok () s ↔ gathered steps s₀ = data) ∧
      ∀ before step after, steps = before ++ step :: after →
        (step.isPeek ∨ ∃ e s', step.get (sourceAfter before s₀) = .error e s') →
        sourceAfter (before ++ [step]) s₀ = sourceAfter before s₀ := by
  intro s₀ s
  obtain ⟨rest, hdata, hs⟩ : ∃ rest, data = gathered steps s₀ ++ rest ∧
    s = ⟨p + (gathered steps s₀).length, rest, []⟩ := exists_rest p data huse
  have hlength : data.length = (gathered steps s₀).length + rest.length := by
    rw [← List.length_append, ← hdata]
  refine ⟨by rw [hs, ← hdata], by rw [hs]; rfl, by rw [hs, hlength, Nat.add_sub_cancel_left]; rfl, ?_, ?_⟩
  · have hall : gathered steps s₀ = data ↔ rest = [] := by
      rw [← List.length_eq_zero_iff]
      refine ⟨fun h => ?_, fun h => ?_⟩
      · rw [h] at hlength
        omega
      · rw [hdata, List.length_eq_zero_iff.1 h, List.append_nil]
    rw [hall, hs]
    cases rest with
    | nil => exact iff_of_true rfl rfl
    | cons b rest => exact iff_of_false nofun nofun
  · rintro before step after rfl hstill
    obtain ⟨hbefore, hafter⟩ := List.forall_mem_append.1 huse
    obtain ⟨left, -, hleft⟩ : ∃ left, _ ∧ sourceAfter before s₀ = ⟨_, left, []⟩ := exists_rest p data hbefore
    rw [sourceAfter_append, hleft]
    rw [hleft] at hstill
    exact sourceAfter_still (List.forall_mem_cons.1 hafter).1 hstill

/-- Of four bytes one is read and then two, between a look and two calls that fail; one is left. -/
theorem gathered_append_rest_four :
    let s₀ : Source := { position := -3, rest := [7, 8, 9, 10] }
    let steps : List ReadStep :=
      [.readByte, .peekBytes 9 false, .readBytes (-1) false, .readBytes 2 true, .readBytes 2 true]
    (∀ step ∈ steps, step.isUse) ∧ gathered steps s₀ = [7, 8, 9] ∧ gathered steps s₀ ++ [10] = [7, 8, 9, 10] ∧
      sourceAfter steps s₀ = ⟨0, [10], []⟩ ∧ Get.finish (sourceAfter steps s₀) ≠ .ok () (sourceAfter steps s₀) := by
  intro s₀ steps
  have huse : ∀ step ∈ steps, isUse step := by decide
  obtain ⟨hdata, -, -, hfinish, -⟩ := gathered_append_rest (-3) [7, 8, 9, 10] huse
  exact ⟨huse, rfl, hdata, rfl, fun h => absurd (hfinish.1 h) (by decide)⟩

end ReadStep

end Marshal
