import Mathlib.Tactic
import Marshal.Value.WellFormed
/-!
# How deep types and values nest

`Ty.nesting` counts every container along a path, `Ty.mentionsMaybe` finds maybe types. Both stop at a variant, for what
a variant holds is no part of its type; `Value.heldTypes` lists the types that the variants of a value hold, at every
level, and `Value.depth` counts what is really there, variants included. A formed type without maybe types has at most
32 arrays and 32 structs along a path, so it nests at most 64 deep (`nesting_le_depth`).
-/
namespace Marshal

namespace Ty

mutual
/-- The number of containers inside one another. -/
def nesting : Ty → Nat
  | .basic _ | .variant => 0
  | .array t | .maybe t => nesting t + 1
  | .struct ts => nestings ts + 1
  | .entry _ t => nesting t + 1

def nestings : List Ty → Nat
  | [] => 0
  | t :: ts => max (nesting t) (nestings ts)
end

mutual
def mentionsMaybe : Ty → Bool
  | .basic _ | .variant => false
  | .array t => mentionsMaybe t
  | .struct ts => mentionMaybe ts
  | .entry _ t => mentionsMaybe t
  | .maybe _ => true

def mentionMaybe : List Ty → Bool
  | [] => false
  | t :: ts => mentionsMaybe t || mentionMaybe ts
end

theorem nestings_le_iff {m : Nat} {ts : List Ty} : nestings ts ≤ m ↔ ∀ t ∈ ts, t.nesting ≤ m := by
  induction ts with
  | nil => simp [nestings]
  | cons t ts ih => simp [nestings, ih]

theorem arrayDepths_le_iff {m : Nat} {ts : List Ty} : arrayDepths ts ≤ m ↔ ∀ t ∈ ts, t.arrayDepth ≤ m := by
  induction ts with
  | nil => simp [arrayDepths]
  | cons t ts ih => simp [arrayDepths, ih]

theorem structDepths_le_iff {m : Nat} {ts : List Ty} : structDepths ts ≤ m ↔ ∀ t ∈ ts, t.structDepth ≤ m := by
  induction ts with
  | nil => simp [structDepths]
  | cons t ts ih => simp [structDepths, ih]

theorem mentionMaybe_eq_false_iff {ts : List Ty} : mentionMaybe ts = false ↔ ∀ t ∈ ts, t.mentionsMaybe = false := by
  induction ts with
  | nil => simp [mentionMaybe]
  | cons t ts ih => simp [mentionMaybe, ih]

theorem areMembers_iff {ts : List Ty} : areMembers ts = true ↔ ∀ t ∈ ts, t.isFormed = true ∧ t.isEntry = false := by
  induction ts with
  | nil => simp [areMembers]
  | cons t ts ih => simp [areMembers, ih, and_assoc]

mutual
theorem nesting_le : (t : Ty) → t.mentionsMaybe = false → t.nesting ≤ t.arrayDepth + t.structDepth
  | .basic _, _ | .variant, _ => Nat.zero_le _
  | .array t, h => by
    have := nesting_le t h
    rw [nesting, arrayDepth, structDepth]
    omega
  | .struct ts, h => by
    have := nestings_le_depths ts h
    rw [nesting, arrayDepth, structDepth]
    omega
  | .entry _ t, h => by
    have := nesting_le t h
    rw [nesting, arrayDepth, structDepth]
    omega
  | .maybe _, h => by cases h

theorem nestings_le_depths : (ts : List Ty) → mentionMaybe ts = false → nestings ts ≤ arrayDepths ts + structDepths ts
  | [], _ => Nat.zero_le _
  | t :: ts, h => by
    rw [mentionMaybe, Bool.or_eq_false_iff] at h
    have h1 := nesting_le t h.1
    have h2 := nestings_le_depths ts h.2
    rw [nestings, arrayDepths, structDepths]
    omega
end

mutual
/-- A formed type keeps the limits on arrays and structs. -/
theorem depths_le_of_isFormed : (t : Ty) → t.isFormed = true →
    t.arrayDepth ≤ Limits.arrayDepth ∧ t.structDepth ≤ Limits.structDepth
  | .basic _, _ | .variant, _ => ⟨Nat.zero_le _, Nat.zero_le _⟩
  | .array t, h => by
    simp only [isFormed, Bool.and_eq_true, decide_eq_true_eq] at h
    have := depths_le_of_isFormed t h.1
    rw [arrayDepth, structDepth]
    exact ⟨h.2, this.2⟩
  | .struct ts, h => by
    simp only [isFormed, Bool.and_eq_true, decide_eq_true_eq] at h
    have := arrayDepths_le_of_areMembers ts h.1.2
    rw [arrayDepth, structDepth]
    exact ⟨this, h.2⟩
  | .entry _ t, h => by
    simp only [isFormed, Bool.and_eq_true, decide_eq_true_eq] at h
    have := depths_le_of_isFormed t h.1.1
    rw [arrayDepth, structDepth]
    exact ⟨this.1, h.2⟩
  | .maybe t, h => by
    simp only [isFormed, Bool.and_eq_true] at h
    have := depths_le_of_isFormed t h.1
    rw [arrayDepth, structDepth]
    exact this

theorem arrayDepths_le_of_areMembers : (ts : List Ty) → areMembers ts = true → arrayDepths ts ≤ Limits.arrayDepth
  | [], _ => Nat.zero_le _
  | t :: ts, h => by
    simp only [areMembers, Bool.and_eq_true] at h
    rw [arrayDepths]
    exact max_le (depths_le_of_isFormed t h.1.1).1 (arrayDepths_le_of_areMembers ts h.2)
end

/-- **A formed type without maybe types nests no deeper than any reader accepts.** -/
theorem nesting_le_depth {t : Ty} (h : t.isFormed = true) (hm : t.mentionsMaybe = false) :
    t.nesting ≤ Limits.depth := by
  have h1 := nesting_le t hm
  obtain ⟨h2, h3⟩ := depths_le_of_isFormed t h
  unfold Limits.arrayDepth Limits.structDepth Limits.depth at *
  omega

end Ty

namespace Value

mutual
/-- The types of what the variants in a value hold, at every level. -/
def heldTypes : Value → List Ty
  | .scalar _ | .nothing _ => []
  | .array _ vs | .struct vs => heldTypesOf vs
  | .entry _ v | .just v => heldTypes v
  | .variant v => v.ty :: heldTypes v

def heldTypesOf : List Value → List Ty
  | [] => []
  | v :: vs => heldTypes v ++ heldTypesOf vs
end

theorem mem_heldTypesOf_iff {t : Ty} : ∀ {vs : List Value}, t ∈ heldTypesOf vs ↔ ∃ v ∈ vs, t ∈ v.heldTypes
  | [] => by simp [heldTypesOf]
  | v :: vs => by rw [heldTypesOf, List.mem_append, mem_heldTypesOf_iff, List.exists_mem_cons_iff]

theorem areWellFormed_iff : ∀ {vs : List Value}, areWellFormed vs = true ↔ ∀ v ∈ vs, v.isWellFormed = true
  | [] => by simp [areWellFormed]
  | v :: vs => by simp [areWellFormed, areWellFormed_iff]

theorem areOf_iff {t : Ty} : ∀ {vs : List Value}, areOf t vs = true ↔ ∀ v ∈ vs, v.isWellFormed = true ∧ v.ty = t
  | [] => by simp [areOf]
  | v :: vs => by simp [areOf, areOf_iff, and_assoc]

/-- **The type of a well-formed value can be formed.** -/
theorem isFormed_ty : ∀ {v : Value}, v.isWellFormed = true → v.ty.isFormed = true
  | .scalar _, _ | .variant _, _ => rfl
  | .array _ _, h | .struct _, h | .just _, h => by
    simp only [isWellFormed, Bool.and_eq_true] at h
    exact h.1
  | .entry _ _, h => by
    simp only [isWellFormed, Bool.and_eq_true] at h
    exact h.1.1
  | .nothing _, h => h

mutual
/-- What a variant holds is of a type that can be formed and stand alone. -/
theorem formed_of_mem_heldTypes : ∀ v : Value, v.isWellFormed = true →
    ∀ t ∈ v.heldTypes, t.isFormed = true ∧ t.isEntry = false
  | .scalar _, _ | .nothing _, _ => List.forall_mem_nil _
  | .array _ vs, h => by
    simp only [isWellFormed, Bool.and_eq_true, areOf_iff] at h
    exact formed_of_mem_heldTypesOf vs fun v hv => (h.2 v hv).1
  | .struct vs, h => by
    simp only [isWellFormed, Bool.and_eq_true, areWellFormed_iff] at h
    exact formed_of_mem_heldTypesOf vs h.2
  | .entry _ v, h | .just v, h => by
    simp only [isWellFormed, Bool.and_eq_true] at h
    exact formed_of_mem_heldTypes v h.2
  | .variant v, h => by
    simp only [isWellFormed, Bool.and_eq_true, Bool.not_eq_true'] at h
    exact List.forall_mem_cons.2 ⟨⟨isFormed_ty h.2, h.1⟩, formed_of_mem_heldTypes v h.2⟩

theorem formed_of_mem_heldTypesOf : ∀ vs : List Value, (∀ v ∈ vs, v.isWellFormed = true) →
    ∀ t ∈ heldTypesOf vs, t.isFormed = true ∧ t.isEntry = false
  | [], _ => List.forall_mem_nil _
  | v :: vs, h => by
    obtain ⟨h1, h2⟩ := List.forall_mem_cons.1 h
    rw [heldTypesOf]
    exact List.forall_mem_append.2 ⟨formed_of_mem_heldTypes v h1, formed_of_mem_heldTypesOf vs h2⟩
end

mutual
/-- The number of values around the innermost one. -/
def depth : Value → Nat
  | .scalar _ | .nothing _ => 0
  | .array _ vs | .struct vs => depths vs
  | .entry _ v | .variant v | .just v => depth v + 1

def depths : List Value → Nat
  | [] => 0
  | v :: vs => max (depth v + 1) (depths vs)
end

theorem depths_le_iff {m : Nat} : ∀ {vs : List Value}, depths vs ≤ m ↔ ∀ v ∈ vs, v.depth < m
  | [] => by simp [depths]
  | v :: vs => by rw [depths, max_le_iff, depths_le_iff, List.forall_mem_cons, Nat.succ_le_iff]

theorem depth_lt_depths {v : Value} {vs : List Value} (h : v ∈ vs) : v.depth < depths vs :=
  depths_le_iff.1 le_rfl v h

mutual
/-- Whether the elements of every array are of the array's type, which is the part of well-formedness that layouts rely
on. -/
def isTyped : Value → Bool
  | .scalar _ | .nothing _ => true
  | .array t vs => haveType t vs
  | .struct vs => areTyped vs
  | .entry _ v | .variant v | .just v => isTyped v

def areTyped : List Value → Bool
  | [] => true
  | v :: vs => isTyped v && areTyped vs

def haveType (t : Ty) : List Value → Bool
  | [] => true
  | v :: vs => isTyped v && v.ty == t && haveType t vs
end

theorem areTyped_iff : ∀ {vs : List Value}, areTyped vs = true ↔ ∀ v ∈ vs, v.isTyped = true
  | [] => by simp [areTyped]
  | v :: vs => by simp [areTyped, areTyped_iff]

theorem haveType_iff {t : Ty} : ∀ {vs : List Value}, haveType t vs = true ↔ ∀ v ∈ vs, v.isTyped = true ∧ v.ty = t
  | [] => by simp [haveType]
  | v :: vs => by simp [haveType, haveType_iff, and_assoc]

mutual
theorem isTyped_of_isWellFormed : ∀ v : Value, v.isWellFormed = true → v.isTyped = true
  | .scalar _, _ | .nothing _, _ => rfl
  | .array t vs, h => by
    rw [isWellFormed, Bool.and_eq_true] at h
    exact haveType_of_areOf t vs h.2
  | .struct vs, h => by
    rw [isWellFormed, Bool.and_eq_true] at h
    exact areTyped_of_areWellFormed vs h.2
  | .entry _ v, h => by
    rw [isWellFormed, Bool.and_eq_true] at h
    exact isTyped_of_isWellFormed v h.2
  | .variant v, h => by
    rw [isWellFormed, Bool.and_eq_true] at h
    exact isTyped_of_isWellFormed v h.2
  | .just v, h => by
    rw [isWellFormed, Bool.and_eq_true] at h
    exact isTyped_of_isWellFormed v h.2

theorem areTyped_of_areWellFormed : ∀ vs : List Value, areWellFormed vs = true → areTyped vs = true
  | [], _ => rfl
  | v :: vs, h => by
    rw [areWellFormed, Bool.and_eq_true] at h
    rw [areTyped, isTyped_of_isWellFormed v h.1, areTyped_of_areWellFormed vs h.2]
    rfl

theorem haveType_of_areOf (t : Ty) : ∀ vs : List Value, areOf t vs = true → haveType t vs = true
  | [], _ => rfl
  | v :: vs, h => by
    rw [areOf, Bool.and_eq_true, Bool.and_eq_true] at h
    rw [haveType, isTyped_of_isWellFormed v h.1.1, h.1.2, haveType_of_areOf t vs h.2]
    rfl
end

end Value

end Marshal
