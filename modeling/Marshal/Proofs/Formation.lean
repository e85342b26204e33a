import Mathlib.Tactic
import Marshal.Proofs.Nesting
/-!
# Types that can be formed

`Ty.Constructed` holds of a type that some sequence of calls of the formation functions gives, from the basic types and
the variant on. `Ty.isFormed` computes it (`constructed_iff`), although it looks at a finished type and each function
looks at the parts of one.
-/
namespace Marshal.Ty

/-- Whether a type comes out of the formation functions. -/
inductive Constructed : Ty → Prop where
  | basic (b : Basic) : Constructed (.basic b)
  | variant : Constructed .variant
  | array {t u : Ty} (ht : Constructed t) (h : arrayOf t = .ok u) : Constructed u
  | struct {ts : List Ty} {u : Ty} (hts : ∀ t ∈ ts, Constructed t) (h : structOf ts = .ok u) : Constructed u
  | entry {k t u : Ty} (hk : Constructed k) (ht : Constructed t) (h : entryOf k t = .ok u) : Constructed u
  | maybe {t u : Ty} (ht : Constructed t) (h : maybeOf t = .ok u) : Constructed u

/-! ## What each function accepts -/

theorem arrayOf_eq_ok {t u : Ty} : arrayOf t = .ok u ↔ t.arrayDepth < Limits.arrayDepth ∧ u = .array t := by
  unfold arrayOf
  split <;> rename_i h
  · exact ⟨nofun, fun h' => absurd h'.1 (by omega)⟩
  · rw [Except.ok.injEq, eq_comm]
    exact ⟨fun h' => ⟨by omega, h'⟩, And.right⟩

theorem structOf_eq_ok {ts : List Ty} {u : Ty} :
    structOf ts = .ok u ↔
      ts ≠ [] ∧ (∀ t ∈ ts, t.isEntry = false) ∧ structDepths ts < Limits.structDepth ∧ u = .struct ts := by
  have hd : (struct ts).structDepth = structDepths ts + 1 := by rw [structDepth]
  unfold structOf
  split <;> rename_i h1
  · simp [List.isEmpty_iff.1 h1]
  rw [List.isEmpty_iff] at h1
  split <;> rename_i h2
  · obtain ⟨t, ht, he⟩ := List.any_eq_true.1 h2
    exact ⟨nofun, fun h => by have := h.2.1 t ht; rw [he] at this; cases this⟩
  have he : ∀ t ∈ ts, t.isEntry = false := fun t ht =>
    Bool.eq_false_iff.2 fun h => h2 (List.any_eq_true.2 ⟨t, ht, h⟩)
  split <;> rename_i h3
  · exact ⟨nofun, fun h => absurd h.2.2.1 (by omega)⟩
  · rw [Except.ok.injEq, eq_comm]
    exact ⟨fun h => ⟨h1, he, by omega, h⟩, fun h => h.2.2.2⟩

theorem entryOf_eq_ok {k t u : Ty} :
    entryOf k t = .ok u ↔
      ∃ b, k = .basic b ∧ t.isEntry = false ∧ t.structDepth < Limits.structDepth ∧ u = .entry b t := by
  cases k with
  | basic b =>
    have hd : (entry b t).structDepth = t.structDepth + 1 := by rw [structDepth]
    simp only [entryOf, basic.injEq, exists_eq_left']
    split <;> rename_i h1
    · simp [h1]
    rw [Bool.not_eq_true] at h1
    split <;> rename_i h2
    · exact ⟨nofun, fun h => absurd h.2.1 (by omega)⟩
    · rw [Except.ok.injEq, eq_comm]
      exact ⟨fun h => ⟨h1, by omega, h⟩, fun h => h.2.2⟩
  | _ => simp [entryOf]

theorem maybeOf_eq_ok {t u : Ty} : maybeOf t = .ok u ↔ t.isEntry = false ∧ u = .maybe t := by
  unfold maybeOf
  split <;> rename_i h
  · simp [h]
  · simp [h, eq_comm]

/-! ## All of them -/

theorem isFormed_of_constructed {t : Ty} (h : t.Constructed) : t.isFormed = true := by
  induction h with
  | basic | variant => rfl
  | array _ h ih =>
    obtain ⟨hd, rfl⟩ := arrayOf_eq_ok.1 h
    simp [isFormed, ih, hd]
  | struct _ h ih =>
    obtain ⟨hne, he, hd, rfl⟩ := structOf_eq_ok.1 h
    simp only [isFormed, Bool.and_eq_true, Bool.not_eq_true', List.isEmpty_eq_false_iff, decide_eq_true_eq]
    exact ⟨⟨hne, areMembers_iff.2 fun t ht => ⟨ih t ht, he t ht⟩⟩, hd⟩
  | entry _ _ h _ ih =>
    obtain ⟨b, rfl, he, hd, rfl⟩ := entryOf_eq_ok.1 h
    simp [isFormed, ih, he, hd]
  | maybe _ h ih =>
    obtain ⟨he, rfl⟩ := maybeOf_eq_ok.1 h
    simp [isFormed, ih, he]

mutual
theorem constructed_of_isFormed : (t : Ty) → t.isFormed = true → t.Constructed
  | .basic b, _ => .basic b
  | .variant, _ => .variant
  | .array t, h => by
    simp only [isFormed, Bool.and_eq_true, decide_eq_true_eq] at h
    exact .array (constructed_of_isFormed t h.1) (arrayOf_eq_ok.2 ⟨h.2, rfl⟩)
  | .struct ts, h => by
    simp only [isFormed, Bool.and_eq_true, Bool.not_eq_true', List.isEmpty_eq_false_iff, decide_eq_true_eq] at h
    have he := fun t ht => (areMembers_iff.1 h.1.2 t ht).2
    exact .struct (constructed_of_areMembers ts h.1.2) (structOf_eq_ok.2 ⟨h.1.1, he, h.2, rfl⟩)
  | .entry k t, h => by
    simp only [isFormed, Bool.and_eq_true, Bool.not_eq_true', decide_eq_true_eq] at h
    exact .entry (.basic k) (constructed_of_isFormed t h.1.1) (entryOf_eq_ok.2 ⟨k, rfl, h.1.2, h.2, rfl⟩)
  | .maybe t, h => by
    simp only [isFormed, Bool.and_eq_true, Bool.not_eq_true'] at h
    exact .maybe (constructed_of_isFormed t h.1) (maybeOf_eq_ok.2 ⟨h.2, rfl⟩)

theorem constructed_of_areMembers : (ts : List Ty) → areMembers ts = true → ∀ t ∈ ts, t.Constructed
  | [], _ => List.forall_mem_nil _
  | t :: ts, h => by
    simp only [areMembers, Bool.and_eq_true] at h
    exact List.forall_mem_cons.2 ⟨constructed_of_isFormed t h.1.1, constructed_of_areMembers ts h.2⟩
end

/-- **A type comes out of the formation functions exactly when it is formed.** -/
theorem constructed_iff {t : Ty} : t.Constructed ↔ t.isFormed = true :=
  ⟨isFormed_of_constructed, constructed_of_isFormed t⟩

end Marshal.Ty
