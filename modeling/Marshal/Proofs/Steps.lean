import Marshal.Proofs.Alignment
import Marshal.Proofs.Cells
import Marshal.Wire.Padding
/-!
# What a step writes and what it reads

`Put.Lays` describes a writer by a function of the position alone: the value it gives and the cells it appends, or the
error it fails with. Caps can only make a writer fail, so what it says about errors is about a sink without caps.

A reader is described twice, for nothing makes the two directions one. `Get.Reads` says what it does on given bytes
whatever follows them; `Get.Finds` says what it must have read when it succeeded.
-/
namespace Marshal

/-- A step followed by another gives what the second gives after the first. -/
theorem bind_eq_ok {ε σ α β : Type} {x : EStateM ε σ α} {f : α → EStateM ε σ β} {s s'' : σ} {b : β} :
    (x >>= f) s = .ok b s'' ↔ ∃ a s', x s = .ok a s' ∧ f a s' = .ok b s'' := by
  change EStateM.bind x f s = _ ↔ _
  unfold EStateM.bind
  cases x s <;> simp

theorem bind_eq_error {ε σ α β : Type} {x : EStateM ε σ α} {f : α → EStateM ε σ β} {s s'' : σ} {e : ε} :
    (x >>= f) s = .error e s'' ↔ x s = .error e s'' ∨ ∃ a s', x s = .ok a s' ∧ f a s' = .error e s'' := by
  change EStateM.bind x f s = _ ↔ _
  unfold EStateM.bind
  cases x s <;> simp

theorem except_bind_eq_ok {ε α β : Type} {x : Except ε α} {f : α → Except ε β} {b : β} :
    (x >>= f) = .ok b ↔ ∃ a, x = .ok a ∧ f a = .ok b := by
  cases x <;> simp [bind, Except.bind]

theorem except_bind_eq_error {ε α β : Type} {x : Except ε α} {f : α → Except ε β} {e : ε} :
    (x >>= f) = .error e ↔ x = .error e ∨ ∃ a, x = .ok a ∧ f a = .error e := by
  cases x <;> simp [bind, Except.bind]

theorem except_map_eq_ok {ε α β : Type} {x : Except ε α} {f : α → β} {b : β} :
    x.map f = .ok b ↔ ∃ a, x = .ok a ∧ f a = b := by
  cases x <;> simp [Except.map]

theorem except_map_eq_error {ε α β : Type} {x : Except ε α} {f : α → β} {e : ε} :
    x.map f = .error e ↔ x = .error e := by
  cases x <;> simp [Except.map]

theorem mapError_eq_ok {ε ε' α : Type} {x : Except ε α} {f : ε → ε'} {a : α} : x.mapError f = .ok a ↔ x = .ok a := by
  cases x <;> simp [Except.mapError]

/-- What is gathered from a list holds what is gathered from each of its items. -/
theorem subset_of_mem_gathered {α β : Type} {f : α → List β} {g : List α → List β}
    (hg : ∀ x xs, g (x :: xs) = f x ++ g xs) {x : α} : ∀ {xs : List α}, x ∈ xs → f x ⊆ g xs
  | y :: xs, h => by
    rw [hg]
    rcases List.mem_cons.1 h with rfl | h
    · exact List.subset_append_left _ _
    · exact List.Subset.trans (subset_of_mem_gathered hg h) (List.subset_append_right _ _)

/-! ## Cells one after another -/

namespace Cell

/-- The cells of one thing and then those of another. -/
def follow (f g : Nat → Except Error (List Cell)) (p : Nat) : Except Error (List Cell) := do
  let cs ← f p
  let ds ← g (p + cs.length)
  return cs ++ ds

/-- The cells of each item in turn. -/
def inTurn {α : Type} (f : Nat → α → Except Error (List Cell)) : Nat → List α → Except Error (List Cell)
  | _, [] => .ok []
  | p, x :: xs => follow (f · x) (inTurn f · xs) p

variable {α : Type} {f g : Nat → Except Error (List Cell)} {p : Nat} {cs : List Cell}

theorem follow_eq_ok : follow f g p = .ok cs ↔ ∃ as bs, f p = .ok as ∧ g (p + as.length) = .ok bs ∧ cs = as ++ bs := by
  simp only [follow, except_bind_eq_ok, pure, Except.pure, Except.ok.injEq]
  constructor
  · rintro ⟨as, h1, bs, h2, rfl⟩
    exact ⟨as, bs, h1, h2, rfl⟩
  · rintro ⟨as, bs, h1, h2, rfl⟩
    exact ⟨as, h1, bs, h2, rfl⟩

theorem inTurn_nil_eq_ok {h : Nat → α → Except Error (List Cell)} : inTurn h p [] = .ok cs ↔ cs = [] := by
  rw [inTurn, Except.ok.injEq, eq_comm]

theorem inTurn_cons_eq_ok {h : Nat → α → Except Error (List Cell)} {x : α} {xs : List α} :
    inTurn h p (x :: xs) = .ok cs ↔
      ∃ as bs, h p x = .ok as ∧ inTurn h (p + as.length) xs = .ok bs ∧ cs = as ++ bs := by
  rw [inTurn, follow_eq_ok]

/-- Every item has cells at some position. -/
theorem exists_of_mem_inTurn {h : Nat → α → Except Error (List Cell)} {x : α} : ∀ {xs : List α} {p : Nat}
    {cs : List Cell}, inTurn h p xs = .ok cs → x ∈ xs → ∃ q ds, h q x = .ok ds
  | y :: ys, p, cs, hall, hx => by
    obtain ⟨as, bs, h1, h2, -⟩ := inTurn_cons_eq_ok.1 hall
    rcases List.mem_cons.1 hx with rfl | hx
    · exact ⟨p, as, h1⟩
    · exact exists_of_mem_inTurn h2 hx

theorem follow_eq_error {e : Error} : follow f g p = .error e ↔
    f p = .error e ∨ ∃ as, f p = .ok as ∧ g (p + as.length) = .error e := by
  simp only [follow, except_bind_eq_error, pure, Except.pure, reduceCtorEq, and_false, exists_false, or_false]

end Cell

/-! ## Writers -/

namespace Cap

/-- Caps that have been charged for `n` bytes. -/
def lower (n : Nat) (caps : List Cap) : List Cap := caps.map fun c => ⟨c.limit, c.left - n⟩

theorem lower_zero (caps : List Cap) : lower 0 caps = caps := by
  simp [lower]

theorem lower_add (m n : Nat) (caps : List Cap) : lower n (lower m caps) = lower (m + n) caps := by
  simp only [lower, List.map_map]
  refine List.map_congr_left fun c _ => ?_
  simp only [Function.comp_apply, Cap.mk.injEq, true_and]
  omega

/-- A charge that all caps let pass: the first lets it pass, and then the others. -/
theorem none_of_chargeAll_cons {n : Int} {c : Cap} {cs caps' : List Cap} (h : chargeAll n (c :: cs) = (none, caps')) :
    n ≤ c.left ∧ ∃ cs', chargeAll n cs = (none, cs') ∧ caps' = ⟨c.limit, c.left - n⟩ :: cs' := by
  rw [chargeAll] at h
  dsimp only at h
  split at h
  · cases h
  · rename_i hleft
    obtain ⟨h1, rfl⟩ := Prod.mk.inj h
    exact ⟨sub_nonneg.1 (not_lt.1 hleft), _, Prod.ext h1 rfl, rfl⟩

/-- A charge that is refused: by the first cap, so that those behind it are not charged, or by one behind it. -/
theorem some_of_chargeAll_cons {n refused : Int} {c : Cap} {cs caps' : List Cap}
    (h : chargeAll n (c :: cs) = (some refused, caps')) :
    (c.left < n ∧ refused = c.limit ∧ caps' = ⟨c.limit, c.left - n⟩ :: cs) ∨
      n ≤ c.left ∧ ∃ cs', chargeAll n cs = (some refused, cs') ∧ caps' = ⟨c.limit, c.left - n⟩ :: cs' := by
  rw [chargeAll] at h
  dsimp only at h
  split at h
  · rename_i hleft
    cases h
    exact .inl ⟨sub_neg.1 hleft, rfl, rfl⟩
  · rename_i hleft
    obtain ⟨h1, rfl⟩ := Prod.mk.inj h
    exact .inr ⟨sub_nonneg.1 (not_lt.1 hleft), _, Prod.ext h1 rfl, rfl⟩

theorem lower_of_chargeAll {n : Nat} :
    ∀ {caps caps' : List Cap}, chargeAll n caps = (none, caps') → caps' = lower n caps
  | [], _, h => by cases h; rfl
  | c :: cs, caps', h => by
    obtain ⟨-, cs', hcs, rfl⟩ := none_of_chargeAll_cons h
    rw [lower, List.map_cons, ← lower, ← lower_of_chargeAll hcs]

theorem map_limit_lower (n : Nat) (caps : List Cap) : (lower n caps).map limit = caps.map limit := by
  rw [lower, List.map_map]
  rfl

/-- A cap that refuses is one of the caps. -/
theorem mem_limits_of_chargeAll {n refused : Int} : ∀ {caps caps' : List Cap},
    chargeAll n caps = (some refused, caps') → refused ∈ caps.map limit
  | c :: cs, caps', h => by
    obtain ⟨-, rfl, -⟩ | ⟨-, cs', hcs, -⟩ := some_of_chargeAll_cons h
    · exact List.mem_cons_self
    · exact List.mem_cons_of_mem _ (mem_limits_of_chargeAll hcs)

variable {caps caps' : List Cap} {k l n limit : Int}

/-- Whether the caps let at most `k` more bytes pass, because one of them has no more left. -/
def AtMost (k : Int) (caps : List Cap) : Prop := ∃ c ∈ caps, c.left ≤ k

theorem AtMost.mono (h : AtMost k caps) (hkl : k ≤ l) : AtMost l caps := by
  obtain ⟨c, hc, hle⟩ := h
  exact ⟨c, hc, hle.trans hkl⟩

theorem AtMost.cons (h : AtMost k caps) (c : Cap) : AtMost k (c :: caps) := by
  obtain ⟨d, hd, hle⟩ := h
  exact ⟨d, List.mem_cons_of_mem _ hd, hle⟩

theorem atMost_head {c : Cap} (h : c.left ≤ k) : AtMost k (c :: caps) := ⟨c, List.mem_cons_self, h⟩

/-- **What passes is allowed, and is taken from what is allowed.** -/
theorem AtMost.of_chargeAll : ∀ {caps caps' : List Cap}, AtMost k caps → chargeAll n caps = (none, caps') →
    n ≤ k ∧ AtMost (k - n) caps'
  | c :: cs, caps', ⟨d, hd, hle⟩, hc => by
    obtain ⟨hleft, cs', hcs, rfl⟩ := none_of_chargeAll_cons hc
    rcases List.mem_cons.1 hd with rfl | hd
    · exact ⟨hleft.trans hle, atMost_head (sub_le_sub_right hle n)⟩
    · obtain ⟨hn, hrest⟩ := AtMost.of_chargeAll ⟨d, hd, hle⟩ hcs
      exact ⟨hn, hrest.cons _⟩

/-- A cap whose whole rest the caps behind it let pass has itself no more left than is allowed. -/
theorem AtMost.left_le {c : Cap} {cs : List Cap} (h : AtMost k (c :: cs)) (hc : chargeAll c.left cs = (none, caps')) :
    c.left ≤ k := by
  obtain ⟨d, hd, hle⟩ := h
  rcases List.mem_cons.1 hd with rfl | hd
  · exact hle
  · exact (AtMost.of_chargeAll ⟨d, hd, hle⟩ hc).1

/-- A cap that has refused lets nothing pass any more. -/
theorem atMost_zero_of_chargeAll : ∀ {caps caps' : List Cap}, chargeAll n caps = (some limit, caps') → AtMost 0 caps'
  | c :: cs, caps', hc => by
    obtain ⟨hlt, -, rfl⟩ | ⟨-, cs', hcs, rfl⟩ := some_of_chargeAll_cons hc
    · exact atMost_head (sub_nonpos.2 hlt.le)
    · exact (atMost_zero_of_chargeAll hcs).cons _

end Cap

namespace Put

open Cell

/-- What a writer gives and appends, as a function of the position it starts at. -/
structure Lays {α : Type} (put : Put α) (spec : Nat → Except Error (α × List Cell)) : Prop where
  ok {s s' : Sink} {a : α} : put s = .ok a s' → ∃ cs, spec s.bytes.size = .ok (a, cs) ∧
    s'.bytes.toList = s.bytes.toList ++ render cs ∧ s'.caps = Cap.lower cs.length s.caps
  error {s s' : Sink} {e : Error} : put s = .error e s' → s.caps = [] → spec s.bytes.size = .error e

/-- The description of a writer that gives nothing. -/
def cellsOnly (r : Except Error (List Cell)) : Except Error (Unit × List Cell) := r.map ((), ·)

/-- What it is to write bytes that do not depend on the position. -/
abbrev Emits (put : Put Unit) (r : Except Error (List UInt8)) : Prop := Lays put fun _ => cellsOnly (r.map given)

variable {α β : Type}

theorem Lays.congr {put : Put α} {f g : Nat → Except Error (α × List Cell)} (h : Lays put f) (hfg : ∀ n, f n = g n) :
    Lays put g := by
  rwa [← funext hfg]

theorem size_of_toList {bytes bytes' : Array UInt8} {cs : List Cell} (h : bytes'.toList = bytes.toList ++ render cs) :
    bytes'.size = bytes.size + cs.length := by
  rw [← Array.length_toList, h, List.length_append, length_render, Array.length_toList]

theorem lays_pure (a : α) : Lays (pure a) fun _ => .ok (a, []) where
  ok h := by
    cases h
    exact ⟨[], rfl, by simp, by rw [List.length_nil, Cap.lower_zero]⟩
  error h := by cases h

theorem lays_throw (e : Error) : Lays (throw e : Put α) fun _ => .error e where
  ok h := by cases h
  error h _ := by cases h; rfl

theorem lays_position : Lays Put.position fun n => .ok (n, []) where
  ok h := by
    cases h
    exact ⟨[], rfl, by simp, by rw [List.length_nil, Cap.lower_zero]⟩
  error h := by cases h

/-- **A writer followed by another appends the cells of both.** -/
theorem Lays.bind {put : Put α} {next : α → Put β} {f : Nat → Except Error (α × List Cell)}
    {g : α → Nat → Except Error (β × List Cell)} (hp : Lays put f) (hn : ∀ a, Lays (next a) (g a)) :
    Lays (put >>= next) fun n => do
      let (a, cs) ← f n
      let (b, ds) ← g a (n + cs.length)
      return (b, cs ++ ds) where
  ok h := by
    obtain ⟨a, s₁, h1, h2⟩ := bind_eq_ok.1 h
    obtain ⟨cs, h3, h4, h5⟩ := hp.ok h1
    obtain ⟨ds, h6, h7, h8⟩ := (hn a).ok h2
    rw [size_of_toList h4] at h6
    refine ⟨cs ++ ds, ?_, ?_, ?_⟩
    · simp only [h3, Bind.bind, Except.bind, h6, pure, Except.pure]
    · rw [h7, h4, render_append, List.append_assoc]
    · rw [h8, h5, Cap.lower_add, List.length_append]
  error {s s' e} h hc := by
    rcases bind_eq_error.1 h with h1 | ⟨a, s₁, h1, h2⟩
    · simp only [hp.error h1 hc, Bind.bind, Except.bind]
    · obtain ⟨cs, h3, h4, h5⟩ := hp.ok h1
      have h6 := (hn a).error h2 (by rw [h5, hc]; rfl)
      rw [size_of_toList h4] at h6
      simp only [h3, Bind.bind, Except.bind, h6]

/-- A write behind caps is refused by one of them, or is made. -/
theorem charge_bind_apply (put : Put α) (k : Nat) (bytes : Array UInt8) (caps : List Cap) :
    (do charge k; put : Put α) ⟨bytes, caps⟩ =
      match Cap.chargeAll k caps with
      | (none, caps) => put ⟨bytes, caps⟩
      | (some limit, caps) => .error (.outputOverCap limit) ⟨bytes, caps⟩ := by
  change EStateM.bind (charge k) (fun _ => put) _ = _
  rw [EStateM.bind, charge]
  rcases Cap.chargeAll k caps with ⟨_ | limit, caps⟩ <;> rfl

theorem writeBytes_apply (bs : List UInt8) (bytes : Array UInt8) (caps : List Cap) :
    writeBytes bs ⟨bytes, caps⟩ =
      match Cap.chargeAll bs.length caps with
      | (none, caps) => .ok () ⟨bytes ++ bs, caps⟩
      | (some limit, caps) => .error (.outputOverCap limit) ⟨bytes, caps⟩ := charge_bind_apply (append bs) _ _ _

/-- Writing what cells are written as lays those cells. -/
theorem lays_render (cs : List Cell) : Lays (writeBytes (render cs)) fun _ => cellsOnly (.ok cs) where
  ok {s s' a} h := by
    obtain ⟨bytes, caps⟩ := s
    rw [writeBytes_apply] at h
    split at h
    · rename_i hc
      cases h
      exact ⟨cs, rfl, by simp, by rw [Cap.lower_of_chargeAll hc, length_render]⟩
    · cases h
  error {s s' e} h hcaps := by
    obtain ⟨bytes, caps⟩ := s
    obtain rfl : caps = [] := hcaps
    cases h

theorem emits_writeBytes (bs : List UInt8) : Emits (writeBytes bs) (.ok bs) := by
  have h := lays_render (given bs)
  rwa [render_given] at h

theorem writeByte_eq {n : Nat} (hn : n < 256) : writeByte n = writeBytes [UInt8.ofNat n] := by
  unfold writeByte writeBytes
  rw [if_pos (by omega), Int.toNat_natCast]
  rfl

theorem emits_writeByte {n : Nat} (hn : n < 256) : Emits (writeByte n) (.ok [UInt8.ofNat n]) := by
  rw [writeByte_eq hn]
  exact emits_writeBytes _

/-- The padding up to an alignment, which is never more than the eight bytes written at a time. -/
theorem lays_pad {a : Nat} (ha : a ∣ 8) : Lays (pad a) fun n => cellsOnly (.ok (blank (padTo n a))) := by
  refine (Lays.bind lays_position (g := fun (p : Nat) _ => cellsOnly (.ok (blank (padTo p a)))) fun p => ?_).congr
    fun n => ?_
  · have hlt := padTo_lt (p : Int) (pos_of_dvd_eight ha)
    have hle := Nat.le_of_dvd (by decide) ha
    have hmin : min (padTo p a) 8 = padTo p a := by omega
    simp only
    split
    · rename_i h0
      rw [h0]
      exact lays_pure ()
    · rw [hmin, ← render_blank]
      exact lays_render _
  · rfl

theorem Lays.andThen {put next : Put Unit} {f g : Nat → Except Error (List Cell)}
    (hp : Lays put fun n => cellsOnly (f n))
    (hn : Lays next fun n => cellsOnly (g n)) : Lays (do put; next) fun n => cellsOnly (follow f g n) := by
  refine (hp.bind fun _ => hn).congr fun n => ?_
  unfold cellsOnly follow
  cases hf : f n with
  | error e => rfl
  | ok cs =>
    simp only [Except.map, Bind.bind, Except.bind]
    cases hg : g (n + cs.length) <;> rfl

theorem Emits.andThen {put next : Put Unit} {as bs : Except Error (List UInt8)} (hp : Emits put as)
    (hn : Emits next bs) :
    Emits (do put; next) (do let as ← as; let bs ← bs; return as ++ bs) := by
  refine (Lays.andThen hp hn).congr fun n => ?_
  cases as with
  | error e => rfl
  | ok as => cases bs with
    | error e => rfl
    | ok bs => exact congrArg (fun cs => cellsOnly (.ok cs)) (given_append as bs).symm

theorem emits_pure : Emits (pure ()) (.ok []) := lays_pure ()

theorem emits_throw (e : Error) : Emits (throw e) (.error e) := lays_throw e

/-- A writer run for each item appends the cells of each in turn. -/
theorem lays_forEach {put : α → Put Unit} {f : Nat → α → Except Error (List Cell)} : ∀ xs : List α,
    (∀ x ∈ xs, Lays (put x) fun n => cellsOnly (f n x)) → Lays (forEach put xs) fun n => cellsOnly (inTurn f n xs)
  | [], _ => lays_pure ()
  | x :: xs, h =>
    Lays.andThen (f := (f · x)) (g := (inTurn f · xs)) (h x (List.mem_cons_self ..))
      (lays_forEach xs fun y hy => h y (List.mem_cons_of_mem x hy))

section

variable {put : Put Unit} {f : Nat → Except Error (List Cell)}

/-- Without caps a writer does what its description says. -/
theorem Lays.apply_of_ok (h : Lays put fun n => cellsOnly (f n)) (bytes : Array UInt8) {cs : List Cell}
    (hf : f bytes.size = .ok cs) : put ⟨bytes, []⟩ = .ok () ⟨bytes ++ render cs, []⟩ := by
  cases hs : put ⟨bytes, []⟩ with
  | error e s =>
    have h1 := h.error hs rfl
    simp only [hf, cellsOnly, Except.map, reduceCtorEq] at h1
  | ok a s =>
    obtain ⟨ds, h1, h2, h3⟩ := h.ok hs
    simp only [hf, cellsOnly, Except.map, Except.ok.injEq, Prod.mk.injEq, true_and] at h1
    subst h1
    rw [← Array.toList_appendList, Array.toList_inj] at h2
    obtain ⟨bytes', caps'⟩ := s
    obtain rfl : bytes' = bytes ++ render cs := h2
    obtain rfl : caps' = [] := h3
    rfl

theorem Lays.apply_of_error (h : Lays put fun n => cellsOnly (f n)) (bytes : Array UInt8) {e : Error}
    (hf : f bytes.size = .error e) : ∃ s, put ⟨bytes, []⟩ = .error e s := by
  cases hs : put ⟨bytes, []⟩ with
  | error e' s =>
    have h1 := h.error hs rfl
    simp only [hf, cellsOnly, Except.map, Except.error.injEq] at h1
    exact ⟨s, by rw [h1]⟩
  | ok a s =>
    obtain ⟨ds, h1, -⟩ := h.ok hs
    simp only [hf, cellsOnly, Except.map, reduceCtorEq] at h1

/-- Everything that is written onto an empty sink. -/
theorem run_eq (h : Lays put fun n => cellsOnly (f n)) : run put none = (f 0).map fun cs => (render cs).toArray := by
  have hwrap : (do wrap none; put : Put Unit) {} = put {} := rfl
  rw [run, hwrap]
  cases hf : f 0 with
  | error e =>
    obtain ⟨s, hs⟩ := h.apply_of_error #[] hf
    rw [hs]
    rfl
  | ok cs =>
    rw [h.apply_of_ok #[] hf]
    simp only [Except.map, Except.ok.injEq, ← Array.toList_inj, Array.toList_appendList]
    rfl

end

end Put

/-! ## Readers -/

namespace Get

variable {α β : Type} {get : Get α} {next : α → Get β} {p : Int}

/-- What a reader takes from a position on and makes of it, whatever follows. -/
def Reads (get : Get α) (p : Int) (bs : List UInt8) (a : α) : Prop :=
  ∀ rest, get ⟨p, bs ++ rest, []⟩ = .ok a ⟨p + bs.length, rest, []⟩

theorem reads_pure (a : α) : Reads (pure a) p [] a := fun rest => by
  rw [List.nil_append, List.length_nil, Nat.cast_zero, add_zero]
  rfl

theorem Reads.bind {as bs : List UInt8} {a : α} {b : β} (h1 : Reads get p as a)
    (h2 : Reads (next a) (p + as.length) bs b) : Reads (get >>= next) p (as ++ bs) b := by
  intro rest
  refine bind_eq_ok.2 ⟨a, _, by rw [List.append_assoc]; exact h1 _, ?_⟩
  rw [List.length_append, Nat.cast_add, ← add_assoc]
  exact h2 rest

/-- A reader whose result is only worked on further. -/
theorem Reads.bind_nil {bs : List UInt8} {a : α} {b : β} (h1 : Reads get p bs a)
    (h2 : Reads (next a) (p + bs.length) [] b) : Reads (get >>= next) p bs b := by
  have h := h1.bind h2
  rwa [List.append_nil] at h

theorem Reads.map {bs : List UInt8} {a : α} {f : α → β} (h : Reads get p bs a) :
    Reads (get >>= fun a => pure (f a)) p bs (f a) := h.bind_nil (reads_pure (f a))

theorem reads_position {next : Int → Get α} {bs : List UInt8} {a : α} (h : Reads (next p) p bs a) :
    Reads (position >>= next) p bs a := h

theorem takeBytes_apply {n p : Int} {rest : List UInt8} {caps : List Cap} :
    takeBytes n true ⟨p, rest, caps⟩ =
      if n < 0 then .error .negativeCount ⟨p, rest, caps⟩
      else if (rest.length : Int) < n then .error (.decode (.underrun n rest.length)) ⟨p, rest, caps⟩
      else .ok (rest.take n.toNat) ⟨p + n, rest.drop n.toNat, caps⟩ := by
  change EStateM.bind (peekBytes n true) (fun bs => EStateM.bind (advance bs.length) fun _ => pure bs) _ = _
  simp only [EStateM.bind, peekBytes, Bool.true_and, decide_eq_true_eq, List.length_take]
  by_cases hneg : n < 0
  · simp only [if_pos hneg]
  · simp only [if_neg hneg]
    by_cases hlt : (rest.length : Int) < n
    · rw [if_pos (by omega), if_pos hlt]
    · rw [if_neg (by omega), if_neg hlt]
      have hmin : min n.toNat rest.length = n.toNat := by omega
      have hn : (n.toNat : Int) = n := by omega
      simp only [advance, List.length_take, hmin, hn]
      rfl

/-- Without caps bytes are taken at once. -/
theorem readBytes_apply (n p : Int) (data : List UInt8) :
    readBytes n true ⟨p, data, []⟩ = takeBytes n true ⟨p, data, []⟩ := rfl

theorem readBytes_eq_ok {n : Int} {data : List UInt8} {a : List UInt8} {s : Source} :
    readBytes n true ⟨p, data, []⟩ = .ok a s ↔
      0 ≤ n ∧ n ≤ data.length ∧ a = data.take n.toNat ∧ s = ⟨p + n, data.drop n.toNat, []⟩ := by
  rw [readBytes_apply, takeBytes_apply]
  split
  · simp only [reduceCtorEq, false_iff, not_and]
    omega
  split
  · simp only [reduceCtorEq, false_iff, not_and]
    omega
  · simp only [EStateM.Result.ok.injEq, eq_comm (a := a), eq_comm (a := s)]
    exact ⟨fun h => ⟨by omega, by omega, h⟩, fun h => h.2.2⟩

theorem reads_readBytes {n : Int} {bs : List UInt8} (h : (bs.length : Int) = n) : Reads (readBytes n true) p bs bs := by
  intro rest
  refine readBytes_eq_ok.2 ⟨by omega, by simp; omega, ?_, ?_⟩
  · rw [← h, Int.toNat_natCast, List.take_left]
  · rw [← h, Int.toNat_natCast, List.drop_left]

/-- What must be so of the bytes that a reader took from a position on and of what it made of them. -/
def Finds (get : Get α) (p : Int) (Q : List UInt8 → α → Prop) : Prop :=
  ∀ data a s, get ⟨p, data, []⟩ = .ok a s → ∃ bs rest, data = bs ++ rest ∧ s = ⟨p + bs.length, rest, []⟩ ∧ Q bs a

theorem Finds.mono {Q R : List UInt8 → α → Prop} (h : Finds get p Q) (hqr : ∀ bs a, Q bs a → R bs a) :
    Finds get p R := by
  intro data a s hs
  obtain ⟨bs, rest, h1, h2, h3⟩ := h data a s hs
  exact ⟨bs, rest, h1, h2, hqr bs a h3⟩

theorem Finds.bind {Q : List UInt8 → α → Prop} {R : List UInt8 → β → Prop} (h1 : Finds get p Q)
    (h2 : ∀ bs a, Q bs a → Finds (next a) (p + bs.length) fun ds b => R (bs ++ ds) b) : Finds (get >>= next) p R := by
  intro data b s hs
  obtain ⟨a, s₁, hget, hnext⟩ := bind_eq_ok.1 hs
  obtain ⟨bs, rest, rfl, rfl, hq⟩ := h1 data a s₁ hget
  obtain ⟨ds, rest', rfl, rfl, hr⟩ := h2 bs a hq _ b s hnext
  refine ⟨bs ++ ds, rest', (List.append_assoc ..).symm, ?_, hr⟩
  rw [List.length_append, Nat.cast_add, add_assoc]

theorem finds_pure {a : α} {Q : List UInt8 → α → Prop} (h : Q [] a) : Finds (pure a) p Q := by
  intro data b s hs
  cases hs
  exact ⟨[], data, rfl, by rw [List.length_nil, Nat.cast_zero, add_zero], h⟩

theorem Finds.map {Q : List UInt8 → α → Prop} {R : List UInt8 → β → Prop} {f : α → β} (h : Finds get p Q)
    (hqr : ∀ bs a, Q bs a → R bs (f a)) : Finds (get >>= fun a => pure (f a)) p R := by
  refine h.bind fun bs a hq => finds_pure ?_
  rw [List.append_nil]
  exact hqr bs a hq

theorem finds_throw {e : Error} {Q : List UInt8 → α → Prop} : Finds (throw e : Get α) p Q := by
  intro data b s hs
  cases hs

theorem finds_fail {e : DecodeError} {Q : List UInt8 → α → Prop} : Finds (fail e : Get α) p Q := finds_throw

theorem finds_fail_bind {e : DecodeError} {Q : List UInt8 → β → Prop} : Finds ((fail e : Get α) >>= next) p Q := by
  intro data b s hs
  cases hs

theorem finds_position {next : Int → Get α} {Q : List UInt8 → α → Prop} (h : Finds (next p) p Q) :
    Finds (position >>= next) p Q := h

theorem finds_has {n : Nat} {next : Bool → Get α} {Q : List UInt8 → α → Prop} (h : ∀ b, Finds (next b) p Q) :
    Finds (has n >>= next) p Q := fun data => h (((data.take n).length) == n) data

theorem finds_remaining {next : Nat → Get α} {Q : List UInt8 → α → Prop} (h : ∀ n, Finds (next n) p Q) :
    Finds (remaining >>= next) p Q := fun data => h data.length data

theorem finds_ofExcept_bind {r : Except Error α} {Q : List UInt8 → β → Prop} (h : ∀ a, r = .ok a → Finds (next a) p Q) :
    Finds (Get.ofExcept r >>= next) p Q := by
  cases r with
  | error e =>
    intro data b s hs
    cases hs
  | ok a => exact h a rfl

theorem finds_ofExcept {r : Except Error α} : Finds (ofExcept r) p fun bs a => bs = [] ∧ r = .ok a := by
  cases r with
  | error e => exact finds_throw
  | ok a => exact finds_pure ⟨rfl, rfl⟩

theorem finds_readBytes {n : Int} : Finds (readBytes n true) p fun bs a => bs = a ∧ (bs.length : Int) = n := by
  intro data a s hs
  obtain ⟨h0, h1, rfl, rfl⟩ := readBytes_eq_ok.1 hs
  have hlen : ((data.take n.toNat).length : Int) = n := by rw [List.length_take]; omega
  exact ⟨data.take n.toNat, data.drop n.toNat, (List.take_append_drop ..).symm, by rw [hlen], rfl, hlen⟩

theorem reads_readByte (b : UInt8) : Reads readByte p [b] b := fun _ => rfl

theorem finds_readByte : Finds readByte p fun bs b => bs = [b] := by
  intro data b s hs
  cases data with
  | nil => cases hs
  | cons x rest =>
    cases hs
    exact ⟨[b], rest, rfl, rfl, rfl⟩

theorem reads_pad {a : Nat} {bs : List UInt8} (h : bs.length = padTo p a) : Reads (pad a) p bs () := by
  refine reads_position ?_
  simp only
  split
  · rename_i h0
    rw [List.eq_nil_of_length_eq_zero (h.trans h0)]
    exact reads_pure ()
  · exact (reads_readBytes (by rw [h])).map

theorem finds_pad {a : Nat} : Finds (pad a) p fun bs _ => bs.length = padTo p a := by
  refine finds_position ?_
  simp only
  split
  · rename_i h0
    exact finds_pure h0.symm
  · exact finds_readBytes.map fun bs a hb => by exact_mod_cast hb.2

/-- There is no padding at an aligned position, and no cap is asked for it. -/
theorem pad_of_dvd {a : Nat} {s : Source} (h : (a : Int) ∣ s.position) : pad a s = .ok () s := by
  change (if padTo s.position a = 0 then pure () else discard (readBytes _ true) : Get Unit) s = _
  rw [if_pos (padTo_of_dvd h)]
  rfl

theorem pad_bind_apply {a : Nat} {next : Unit → Get β} {s : Source} (h : (a : Int) ∣ s.position) :
    (pad a >>= next) s = next () s := by
  change EStateM.bind (pad a) next s = _
  rw [EStateM.bind, pad_of_dvd h]

/-! ### The whole of a window -/

/-- What a reader makes of all that is left. -/
def Takes (get : Get α) (p : Int) (bs : List UInt8) (a : α) : Prop :=
  get ⟨p, bs, []⟩ = .ok a ⟨p + bs.length, [], []⟩

theorem Reads.takes {bs : List UInt8} {a : α} (h : Reads get p bs a) : Takes get p bs a := by
  have h1 := h []
  rwa [List.append_nil] at h1

theorem Takes.bind {bs : List UInt8} {a : α} {b : β} (h1 : Takes get p bs a)
    (h2 : Reads (next a) (p + bs.length) [] b) : Takes (get >>= next) p bs b := by
  refine bind_eq_ok.2 ⟨a, _, h1, ?_⟩
  have h := h2 []
  rwa [List.append_nil, List.length_nil, Nat.cast_zero, add_zero] at h

theorem takes_readAll {bs : List UInt8} : Takes readAll p bs bs := rfl

theorem finds_readAll : Finds readAll p fun bs a => a = bs := by
  intro data a s hs
  cases hs
  exact ⟨data, [], (List.append_nil _).symm, rfl, rfl⟩

theorem run_eq_ok {s : Source} {a : α} : run get s = .ok a ↔ ∃ s', get s = .ok a s' ∧ s'.rest = [] := by
  have hrun : run get s = .ok a ↔ ∃ s'', (do let a ← get; finish; return a : Get α) s = .ok a s'' := by
    unfold run
    cases (do let a ← get; finish; return a : Get α) s <;> simp
  rw [hrun]
  constructor
  · rintro ⟨s'', h⟩
    obtain ⟨b, s₁, h1, h2⟩ := bind_eq_ok.1 h
    obtain ⟨_, s₂, h3, h4⟩ := bind_eq_ok.1 h2
    cases h4
    unfold finish at h3
    split at h3
    · rename_i h0
      exact ⟨s₁, h1, List.isEmpty_iff.1 h0⟩
    · cases h3
  · rintro ⟨s₁, h1, h0⟩
    refine ⟨s₁, bind_eq_ok.2 ⟨a, s₁, h1, bind_eq_ok.2 ⟨(), s₁, ?_, rfl⟩⟩⟩
    rw [finish, if_pos (List.isEmpty_iff.2 h0)]

/-- A cap that is put before the whole input. -/
theorem run_wrap_bind (get : Get α) (cap : Option Int) (bytes : List UInt8) :
    run (do wrap cap; get) { rest := bytes } = run get { rest := bytes, caps := cap.toList.map Cap.new } := by
  cases cap <;> rfl

theorem run_eq_error {s s' : Source} {e : Error} (h : get s = .error e s') : run get s = .error e := by
  have hall : (do let a ← get; finish; return a : Get α) s = .error e s' := bind_eq_error.2 (.inl h)
  rw [run, hall]

theorem Takes.run {bs : List UInt8} {a : α} (h : Takes get p bs a) : Get.run get ⟨p, bs, []⟩ = .ok a :=
  run_eq_ok.2 ⟨_, h, rfl⟩

/-- What a reader found when it took the whole of its input. -/
theorem Finds.of_run {Q : List UInt8 → α → Prop} (h : Finds get p Q) {data : List UInt8} {a : α}
    (hr : Get.run get ⟨p, data, []⟩ = .ok a) : Q data a := by
  obtain ⟨s, hs, h0⟩ := run_eq_ok.1 hr
  obtain ⟨bs, rest, rfl, rfl, hq⟩ := h data a s hs
  obtain rfl : rest = [] := h0
  rwa [List.append_nil]

end Get

end Marshal
