import Mathlib.Tactic
import Marshal.Codec.Basic
import Marshal.Proofs.Grammar
import Marshal.Proofs.Scalars
/-!
# A lower limit on depth

The depth limit of a codec bounds the levels of a value and, in a decoder, the containers in the signature of what a
variant holds. To see what the second bound does, a reader with a low limit is held against one with a high limit and
the same room. What the high one gives the low one gives as well, unless it is too deep for it, and then the low one
refuses a signature: `Get.Narrows` says so of two readers, `Lowers` of two results. Both are closed under bind, so each
reader of a format needs one lemma, and nothing has to be known of the bytes.
-/
namespace Marshal

namespace Codec

/-- A codec with another limit on depth. -/
def withDepth (c : Codec) (d : Int) : Codec := { c with maxDepth := d }

@[simp] theorem withDepth_maxArrayLength (c : Codec) (d : Int) : (c.withDepth d).maxArrayLength = c.maxArrayLength := rfl

end Codec

/-! ## Values that are too deep -/

namespace Value

/-- Whether a variant in a value, at any level, holds a value whose type nests more containers than a limit. -/
def TooDeep (limit : Int) (v : Value) : Prop := ∃ t ∈ v.heldTypes, limit < (t.nesting : Int)

variable {limit : Int}

theorem not_tooDeep_scalar {s : Scalar} : ¬ (Value.scalar s).TooDeep limit := nofun

theorem not_tooDeep_nothing {t : Ty} : ¬ (Value.nothing t).TooDeep limit := nofun

theorem exists_mem_heldTypesOf_iff {P : Ty → Prop} {vs : List Value} :
    (∃ t ∈ heldTypesOf vs, P t) ↔ ∃ v ∈ vs, ∃ t ∈ v.heldTypes, P t := by
  simp only [mem_heldTypesOf_iff]
  exact ⟨fun ⟨t, ⟨v, hv, ht⟩, h⟩ => ⟨v, hv, t, ht, h⟩, fun ⟨v, hv, t, ht, h⟩ => ⟨t, ⟨v, hv, ht⟩, h⟩⟩

theorem tooDeep_array_iff {t : Ty} {vs : List Value} : (Value.array t vs).TooDeep limit ↔ ∃ v ∈ vs, v.TooDeep limit :=
  exists_mem_heldTypesOf_iff

theorem tooDeep_struct_iff {vs : List Value} : (Value.struct vs).TooDeep limit ↔ ∃ v ∈ vs, v.TooDeep limit :=
  exists_mem_heldTypesOf_iff

theorem tooDeep_entry_iff {k : Scalar} {v : Value} : (Value.entry k v).TooDeep limit ↔ v.TooDeep limit := Iff.rfl

theorem tooDeep_just_iff {v : Value} : (Value.just v).TooDeep limit ↔ v.TooDeep limit := Iff.rfl

theorem tooDeep_variant_iff {v : Value} :
    (Value.variant v).TooDeep limit ↔ limit < (v.ty.nesting : Int) ∨ v.TooDeep limit := by
  unfold TooDeep
  rw [heldTypes, List.exists_mem_cons_iff]

end Value

/-! ## Results -/

variable {α β : Type}

/-- What a lower limit makes of a result: it is the same, or the refusal of a signature when it is too deep. -/
structure Lowers (deep Q : α → Prop) (low high : Except Error α) : Prop where
  result {a : α} : high = .ok a → Q a
  ok {a : α} : high = .ok a → ¬ deep a → low = .ok a
  error {a : α} : high = .ok a → deep a → ∃ e, low = .error e ∧ e.kind = .decode .signature

theorem lowers_same {r : Except Error α} {Q : α → Prop} (h : ∀ a, r = .ok a → Q a) : Lowers (fun _ => False) Q r r :=
  ⟨fun ha => h _ ha, fun ha _ => ha, fun _ hf => hf.elim⟩

/-- Nothing is said where the higher limit already refuses. -/
theorem lowers_error {low : Except Error α} {e : Error} {deep Q : α → Prop} : Lowers deep Q low (.error e) :=
  ⟨nofun, nofun, nofun⟩

theorem Lowers.bind {low high : Except Error α} {lowNext highNext : α → Except Error β} {d P : α → Prop}
    {deep Q : β → Prop} (h : Lowers d P low high)
    (hn : ∀ a, P a → ¬ d a → Lowers deep Q (lowNext a) (highNext a))
    (hd : ∀ a b, P a → d a → highNext a = .ok b → Q b ∧ deep b) :
    Lowers deep Q (low >>= lowNext) (high >>= highNext) := by
  cases high with
  | error e => exact lowers_error
  | ok a =>
    have hp := h.result rfl
    by_cases ha : d a
    · obtain ⟨e, rfl, hk⟩ := h.error rfl ha
      exact ⟨fun hb => (hd a _ hp ha hb).1, fun hb hnot => absurd (hd a _ hp ha hb).2 hnot, fun _ _ => ⟨e, rfl, hk⟩⟩
    · obtain rfl := h.ok rfl ha
      exact hn a hp ha

/-- A step that the limit has no part in. -/
theorem Lowers.same_bind {r : Except Error α} {lowNext highNext : α → Except Error β} {deep Q : β → Prop}
    (h : ∀ a, r = .ok a → Lowers deep Q (lowNext a) (highNext a)) : Lowers deep Q (r >>= lowNext) (r >>= highNext) :=
  (lowers_same (Q := fun a => r = .ok a) fun _ h => h).bind (fun a ha _ => h a ha) fun _ _ _ hf => hf.elim

/-- A list is too deep when one of its items is. -/
theorem lowers_mapM {low high : α → Except Error β} {deep : β → Prop} {Q : α → β → Prop} : ∀ {l : List α},
    (∀ x ∈ l, Lowers deep (Q x) (low x) (high x)) →
      Lowers (fun ys => ∃ y ∈ ys, deep y) (List.Forall₂ Q l) (l.mapM low) (l.mapM high)
  | [], _ => by
    rw [List.mapM_nil, List.mapM_nil]
    refine ⟨fun h => ?_, fun h _ => h, fun h hd => ?_⟩ <;> cases h
    · exact .nil
    · exact nomatch hd
  | x :: xs, h => by
    obtain ⟨h1, h2⟩ := List.forall_mem_cons.1 h
    have ih := lowers_mapM h2
    rw [List.mapM_cons, List.mapM_cons]
    refine h1.bind (fun y hy hny => ih.bind (fun ys hys hnys => ?_) fun ys zs hys hdys hz => ?_) fun y zs hy hdy hz => ?_
    · refine ⟨fun hz => ?_, fun hz _ => hz, fun hz hd => ?_⟩ <;> cases hz
      · exact .cons hy hys
      · exact absurd ((List.exists_mem_cons_iff ..).1 hd) (not_or.2 ⟨hny, hnys⟩)
    · cases hz
      exact ⟨.cons hy hys, (List.exists_mem_cons_iff ..).2 (.inr hdys)⟩
    · obtain ⟨ys, hys, hz⟩ := except_bind_eq_ok.1 hz
      cases hz
      exact ⟨.cons hy (ih.result hys), (List.exists_mem_cons_iff ..).2 (.inl hdy)⟩

/-! ## Readers -/

namespace Get

/-- What a reader gives and the source it leaves, or its error. -/
def outcome (get : Get α) (s : Source) : Except Error (α × Source) :=
  match get s with
  | .ok a s' => .ok (a, s')
  | .error e _ => .error e

/-- What a lower limit makes of a reader. -/
def Narrows (deep Q : α → Prop) (low high : Get α) : Prop :=
  ∀ s, Lowers (fun x => deep x.1) (fun x => Q x.1) (outcome low s) (outcome high s)

variable {low high : Get α} {lowNext highNext : α → Get β}

theorem outcome_eq_ok {get : Get α} {s s' : Source} {a : α} : outcome get s = .ok (a, s') ↔ get s = .ok a s' := by
  unfold outcome
  cases get s <;> simp

theorem outcome_eq_error {get : Get α} {s : Source} {e : Error} :
    outcome get s = .error e ↔ ∃ s', get s = .error e s' := by
  unfold outcome
  cases get s <;> simp

theorem outcome_bind (get : Get α) (next : α → Get β) (s : Source) :
    outcome (get >>= next) s = outcome get s >>= fun x => outcome (next x.1) x.2 := by
  change (match EStateM.bind get next s with | .ok a s' => _ | .error e _ => _ : Except Error (β × Source)) = _
  unfold EStateM.bind outcome
  cases get s <;> rfl

theorem narrows_same {get : Get α} {Q : α → Prop} (h : ∀ s a s', get s = .ok a s' → Q a) :
    Narrows (fun _ => False) Q get get := fun s => lowers_same fun ⟨a, s'⟩ ha => h s a s' (outcome_eq_ok.1 ha)

theorem narrows_throw {e : Error} {deep Q : α → Prop} : Narrows deep Q low (throw e) := fun _ => lowers_error

theorem narrows_fail {d : DecodeError} {deep Q : α → Prop} : Narrows deep Q low (fail d) := narrows_throw

/-- The refusal of a signature where all that the higher limit gives is too deep. -/
theorem narrows_fail_of_deep {e : DecodeError} {deep Q : α → Prop} (he : e.kind = .signature)
    (h : ∀ s a s', high s = .ok a s' → Q a ∧ deep a) : Narrows deep Q (fail e) high := fun s =>
  ⟨fun ha => (h s _ _ (outcome_eq_ok.1 ha)).1, fun ha hn => absurd (h s _ _ (outcome_eq_ok.1 ha)).2 hn,
    fun _ _ => ⟨.decode e, rfl, congrArg ErrorKind.decode he⟩⟩

theorem narrows_pure {a : α} {deep Q : α → Prop} (hq : Q a) (hd : ¬ deep a) : Narrows deep Q (pure a) (pure a) :=
  fun _ => ⟨fun h => by cases h; exact hq, fun h _ => h, fun h hd' => by cases h; exact absurd hd' hd⟩

theorem narrows_ofExcept {r r' : Except Error α} {deep Q : α → Prop} (h : Lowers deep Q r r') :
    Narrows deep Q (ofExcept r) (ofExcept r') := by
  intro s
  have hof (r : Except Error α) : outcome (ofExcept r) s = r.map (·, s) := by cases r <;> rfl
  rw [hof, hof]
  constructor
  · intro x hx
    obtain ⟨a, ha, rfl⟩ := except_map_eq_ok.1 hx
    exact h.result ha
  · intro x hx hn
    obtain ⟨a, ha, rfl⟩ := except_map_eq_ok.1 hx
    exact except_map_eq_ok.2 ⟨a, h.ok ha hn, rfl⟩
  · intro x hx hd
    obtain ⟨a, ha, rfl⟩ := except_map_eq_ok.1 hx
    obtain ⟨e, he, hk⟩ := h.error ha hd
    exact ⟨e, except_map_eq_error.2 he, hk⟩

theorem Narrows.bind {d P : α → Prop} {deep Q : β → Prop} (h : Narrows d P low high)
    (hn : ∀ a, P a → ¬ d a → Narrows deep Q (lowNext a) (highNext a))
    (hd : ∀ a s b s', P a → d a → highNext a s = .ok b s' → Q b ∧ deep b) :
    Narrows deep Q (low >>= lowNext) (high >>= highNext) := by
  intro s
  rw [outcome_bind, outcome_bind]
  exact (h s).bind (fun x hp hnot => hn x.1 hp hnot x.2) fun x y hp hdeep hy =>
    hd x.1 x.2 y.1 y.2 hp hdeep (outcome_eq_ok.1 hy)

theorem Narrows.same_bind {get : Get α} {deep Q : β → Prop} (h : ∀ a, Narrows deep Q (lowNext a) (highNext a)) :
    Narrows deep Q (get >>= lowNext) (get >>= highNext) :=
  (narrows_same (Q := fun _ => True) fun _ _ _ _ => trivial).bind (fun a _ _ => h a) fun _ _ _ _ _ hf => hf.elim

theorem Narrows.map {d P : α → Prop} {deep Q : β → Prop} {f : α → β} (h : Narrows d P low high)
    (hf : ∀ a, P a → Q (f a) ∧ (deep (f a) ↔ d a)) :
    Narrows deep Q (low >>= fun a => pure (f a)) (high >>= fun a => pure (f a)) := by
  refine h.bind (fun a hp hn => narrows_pure (hf a hp).1 (mt (hf a hp).2.1 hn)) fun a s b s' hp hd hb => ?_
  cases hb
  exact ⟨(hf a hp).1, (hf a hp).2.2 hd⟩

theorem Narrows.run {deep Q : α → Prop} (h : Narrows deep Q low high) (s : Source) :
    Lowers deep Q (Get.run low s) (Get.run high s) := by
  constructor
  · intro a ha
    obtain ⟨s', hs, -⟩ := run_eq_ok.1 ha
    exact (h s).result (outcome_eq_ok.2 hs)
  · intro a ha hn
    obtain ⟨s', hs, hrest⟩ := run_eq_ok.1 ha
    exact run_eq_ok.2 ⟨s', outcome_eq_ok.1 ((h s).ok (outcome_eq_ok.2 hs) hn), hrest⟩
  · intro a ha hd
    obtain ⟨s', hs, -⟩ := run_eq_ok.1 ha
    obtain ⟨e, he, hk⟩ := (h s).error (outcome_eq_ok.2 hs) hd
    obtain ⟨s'', he⟩ := outcome_eq_error.1 he
    exact ⟨e, run_eq_error he, hk⟩

end Get

/-! ## Signatures -/

/-- What a signature stands for under a limit it stands for under a greater one. -/
theorem Signature.parse_of_le {format : Option WireFormat} {d d' : Int} {text : Text} {t : Ty} (hle : d ≤ d')
    (h : parse ⟨format, d⟩ text = .ok t) : parse ⟨format, d'⟩ text = .ok t := by
  obtain ⟨htext, hlen, hacc⟩ := parse_eq_ok_iff.1 h
  exact parse_eq_ok_iff.2 ⟨htext, hlen, { hacc with nesting := hacc.nesting.imp_right fun h => h.trans hle }⟩

/-- **What a limit on depth does to a signature**: it is refused when it nests more containers. -/
theorem Signature.parse_of_parse {format : Option WireFormat} {d d' : Int} {text : Text} {t : Ty} (h0 : 0 ≤ d)
    (h : parse ⟨format, d'⟩ text = .ok t) :
    ((t.nesting : Int) ≤ d → parse ⟨format, d⟩ text = .ok t) ∧
      (d < (t.nesting : Int) → ∃ e, parse ⟨format, d⟩ text = .error e) := by
  obtain ⟨htext, hlen, hacc⟩ := parse_eq_ok_iff.1 h
  constructor
  · intro hn
    refine parse_eq_ok_iff.2 ⟨htext, hlen, ?_⟩
    exact accepts_of_isFormed hacc.isFormed (hacc.isEntry_eq_false rfl) hn hacc.maybes
  · intro hn
    cases hp : parse ⟨format, d⟩ text with
    | error e => exact ⟨e, rfl⟩
    | ok u =>
      -- a reader with the greater of the limits gives both types, so they are one
      have htu := (parse_of_le (le_max_right d d') h).symm.trans (parse_of_le (le_max_left d d') hp)
      cases htu
      have := (parse_eq_ok_iff.1 hp).2.2.nesting
      simp only [Nat.zero_add] at this
      omega

end Marshal
