import Marshal.Proofs.Composition
/-!
# Two runs side by side

Some laws compare two runs: under other limits, behind other caps, in the other byte order. The runs go through states
of their own, so a law says how the states are related and that steps keep them so. `Follows` says of two steps that
whatever the first one gives the second gives as well, `Agrees` that they also fail in the same way. Both are closed
under bind, so that nothing has to be known of whole runs.

For writers the closure is all that is used: `Put.Congruence` names it, and a container is written alike in two runs, as
any such relation has it, as soon as its children are.
-/
namespace Marshal

variable {ε σ α β : Type} {R : σ → σ → Prop} {x y : EStateM ε σ α} {f g : α → EStateM ε σ β}

/-- Whether one step gives all that another one gives, from related states to related states. -/
def Follows (R : σ → σ → Prop) (x y : EStateM ε σ α) : Prop :=
  ∀ ⦃s t a s'⦄, R s t → x s = .ok a s' → ∃ t', y t = .ok a t' ∧ R s' t'

theorem follows_pure (a : α) : Follows R (pure a : EStateM ε σ α) (pure a) := fun _ t _ _ hst h => by
  cases h
  exact ⟨t, rfl, hst⟩

/-- Nothing has to be given where the first step fails. -/
theorem follows_throw {e : ε} : Follows R (throw e : EStateM ε σ α) y := nofun

theorem Follows.bind (h : Follows R x y) (hn : ∀ a, Follows R (f a) (g a)) : Follows R (x >>= f) (y >>= g) := by
  intro s t b s' hst hr
  obtain ⟨a, s₁, h1, h2⟩ := bind_eq_ok.1 hr
  obtain ⟨t₁, h3, hst₁⟩ := h hst h1
  obtain ⟨t', h4, hst'⟩ := hn a hst₁ h2
  exact ⟨t', bind_eq_ok.2 ⟨a, t₁, h3, h4⟩, hst'⟩

theorem Follows.map {k : α → β} (h : Follows R x y) :
    Follows R (x >>= fun a => pure (k a)) (y >>= fun a => pure (k a)) := h.bind fun a => follows_pure (k a)

/-- Whether two steps give the same or fail with the same error, from related states to related states. -/
structure Agrees (R : σ → σ → Prop) (x y : EStateM ε σ α) : Prop where
  ok : Follows R x y
  error {s t s' : σ} {e : ε} : R s t → x s = .error e s' → ∃ t', y t = .error e t'

/-- Steps agree when both give the same or both fail, as one look at the two states shows. -/
theorem agrees_of_forall (h : ∀ s t, R s t → (∃ a s' t', x s = .ok a s' ∧ y t = .ok a t' ∧ R s' t') ∨
    ∃ e s' t', x s = .error e s' ∧ y t = .error e t') : Agrees R x y where
  ok s t a s' hst hr := by
    rcases h s t hst with ⟨b, s₁, t₁, hs, ht, hst₁⟩ | ⟨e, s₁, t₁, hs, -⟩
    · cases hs.symm.trans hr
      exact ⟨t₁, ht, hst₁⟩
    · cases hs.symm.trans hr
  error {s t s' e} hst hr := by
    rcases h s t hst with ⟨b, s₁, t₁, hs, -⟩ | ⟨e', s₁, t₁, hs, ht⟩
    · cases hs.symm.trans hr
    · cases hs.symm.trans hr
      exact ⟨t₁, ht⟩

theorem agrees_pure (a : α) : Agrees R (pure a : EStateM ε σ α) (pure a) := ⟨follows_pure a, fun _ h => nomatch h⟩

theorem agrees_refl (x : EStateM ε σ α) : Agrees Eq x x where
  ok _ _ _ s' hst hr := ⟨s', hst ▸ hr, rfl⟩
  error {_ _ s' _} hst hr := ⟨s', hst ▸ hr⟩

theorem agrees_throw (e : ε) : Agrees R (throw e : EStateM ε σ α) (throw e) where
  ok := follows_throw
  error _ h := by
    cases h
    exact ⟨_, rfl⟩

theorem Agrees.bind (h : Agrees R x y) (hn : ∀ a, Agrees R (f a) (g a)) : Agrees R (x >>= f) (y >>= g) where
  ok := h.ok.bind fun a => (hn a).ok
  error hst hr := by
    rcases bind_eq_error.1 hr with h1 | ⟨a, s₁, h1, h2⟩
    · obtain ⟨t', h3⟩ := h.error hst h1
      exact ⟨t', bind_eq_error.2 (.inl h3)⟩
    · obtain ⟨t₁, h3, hst₁⟩ := h.ok hst h1
      obtain ⟨t', h4⟩ := (hn a).error hst₁ h2
      exact ⟨t', bind_eq_error.2 (.inr ⟨a, t₁, h3, h4⟩)⟩

/-! ## Writers -/

namespace Put

/-- A relation of writers that every writer has to itself and that steps in a row hand on. -/
structure Congruence (P : ∀ ⦃α : Type⦄, Put α → Put α → Prop) : Prop where
  refl {α : Type} {put : Put α} : Composed 0 put → P put put
  bind {α β : Type} {x y : Put α} {f g : α → Put β} : P x y → (∀ a, P (f a) (g a)) → P (x >>= f) (y >>= g)

variable {P : ∀ ⦃α : Type⦄, Put α → Put α → Prop} {put put' : α → Put Unit}

theorem Congruence.position (hP : Congruence P) : P Put.position Put.position := hP.refl (.position fun _ _ => .pure _)

theorem Congruence.map (hP : Congruence P) {x y : Put α} {k : α → β} (h : P x y) :
    P (x >>= fun a => pure (k a)) (y >>= fun a => pure (k a)) := hP.bind h fun _ => hP.refl (.pure _)

theorem Congruence.forEach (hP : Congruence P) : ∀ xs : List α, (∀ x ∈ xs, P (put x) (put' x)) →
    P (Put.forEach put xs) (Put.forEach put' xs)
  | [], _ => hP.refl (.pure ())
  | x :: xs, h => by
    obtain ⟨h1, h2⟩ := List.forall_mem_cons.1 h
    exact hP.bind h1 fun _ => hP.forEach xs h2

end Put

namespace Framing

open Put

variable {P : ∀ ⦃α : Type⦄, Put α → Put α → Prop} {put put' : α → Put Unit}

theorem congr_putElements (hP : Congruence P) (alignment start : Nat) : ∀ (ends : List Int) (items : List α),
    (∀ x ∈ items, P (put x) (put' x)) →
      P (putElements put alignment start ends items) (putElements put' alignment start ends items)
  | ends, [], _ => hP.refl (.pure _)
  | ends, x :: items, h => by
    obtain ⟨h1, h2⟩ := List.forall_mem_cons.1 h
    refine hP.bind (hP.refl (composed_pad alignment)) fun _ => hP.bind h1 fun _ => ?_
    exact hP.bind (hP.map hP.position) fun stop => congr_putElements hP alignment start _ items h2

theorem congr_putCollection (hP : Congruence P) (l : Layout) {items : List α} (h : ∀ x ∈ items, P (put x) (put' x)) :
    P (putCollection put l items) (putCollection put' l items) :=
  hP.bind hP.position fun start => hP.bind (congr_putElements hP l.alignment start [] items h) fun _ =>
    hP.bind (hP.map hP.position) fun _ => hP.refl (composed_putOffsets _ _)

theorem congr_putMembers (hP : Congruence P) (start : Nat) : ∀ members : List (Layout × α),
    (∀ m ∈ members, P (put m.2) (put' m.2)) → P (putMembers put start members) (putMembers put' start members)
  | [], _ => hP.refl (.pure _)
  | (l, x) :: members, h => by
    obtain ⟨h1, h2⟩ := List.forall_mem_cons.1 h
    refine hP.bind (hP.refl (composed_pad l.alignment)) fun _ => hP.bind h1 fun _ => ?_
    refine hP.bind (hP.map hP.position) fun stop => ?_
    exact hP.bind (congr_putMembers hP start members h2) fun _ => hP.refl (.pure _)

theorem congr_putTuple (hP : Congruence P) (alignment : Nat) {members : List (Layout × α)}
    (h : ∀ m ∈ members, P (put m.2) (put' m.2)) :
    P (putTuple put alignment members) (putTuple put' alignment members) := by
  refine hP.bind hP.position fun start => hP.bind (congr_putMembers hP start members h) fun ends => ?_
  refine hP.bind (hP.map hP.position) fun stop => ?_
  split
  · exact hP.refl (composed_pad alignment)
  · exact hP.refl (composed_putOffsets _ _)

end Framing

variable {P : ∀ ⦃α : Type⦄, Put α → Put α → Prop} {c c' : Codec} {room room' : Nat} {v : Value}

/-- One level of two D-Bus encoders. What arrays do is left open, for they also write their length and check it. -/
theorem Dbus.congr_put (hP : Put.Congruence P)
    (hscalar : ∀ s, v = .scalar s → P (putScalar c.order s) (putScalar c'.order s))
    (harray : ∀ t vs, v = .array t vs → P (putArray c (put c room) t vs) (putArray c' (put c' room') t vs))
    (h : ∀ w ∈ v.children, P (put c room w) (put c' room' w)) : P (put c (room + 1) v) (put c' (room' + 1) v) := by
  refine hP.bind (hP.refl (composed_putAlignment v.ty)) fun a => hP.bind (hP.refl (Put.composed_pad a)) fun _ => ?_
  cases v with
  | scalar s => exact hscalar s rfl
  | array t vs => exact harray t vs rfl
  | struct vs => exact hP.forEach vs h
  | entry k w =>
    refine hP.bind (h _ List.mem_cons_self) fun _ => ?_
    exact h w (List.mem_cons_of_mem _ (List.mem_singleton_self w))
  | variant w =>
    exact hP.bind (hP.refl (Put.composed_signature true _)) fun _ => h w (List.mem_singleton_self w)
  | nothing t => exact hP.refl (.throw nofun)
  | just w => exact hP.refl (.throw nofun)

/-- One level of two GVariant encoders. -/
theorem Gvariant.congr_put (hP : Put.Congruence P)
    (hscalar : ∀ s, v = .scalar s → P (putScalar c.order s) (putScalar c'.order s))
    (h : ∀ w ∈ v.children, P (put c room w) (put c' room' w)) : P (put c (room + 1) v) (put c' (room' + 1) v) := by
  have hmembers {vs : List Value} (hvs : vs = v.children) :
      ∀ m ∈ laidOut vs, P (put c room m.2) (put c' room' m.2) := fun m hm => by
    obtain ⟨w, hw, rfl⟩ := List.mem_map.1 hm
    exact h w (hvs ▸ hw)
  have hzero : Put.Composed 0 (Put.writeByte 0) := Put.composed_writeByte (k := 0) (by decide)
  refine hP.bind (hP.refl (Put.composed_pad _)) fun _ => ?_
  cases v with
  | scalar s => exact hscalar s rfl
  | array t vs => exact Framing.congr_putCollection hP _ h
  | struct vs => exact Framing.congr_putTuple hP _ (hmembers rfl)
  | entry k w => exact Framing.congr_putTuple hP _ (hmembers rfl)
  | variant w =>
    refine hP.bind (h w (List.mem_singleton_self w)) fun _ => ?_
    exact hP.refl (hzero.bind fun _ => .writeBytes _)
  | nothing t => exact hP.refl (.pure ())
  | just w =>
    refine hP.bind (h w (List.mem_singleton_self w)) fun _ => ?_
    split
    · exact hP.refl (.pure ())
    · exact hP.refl hzero

end Marshal
