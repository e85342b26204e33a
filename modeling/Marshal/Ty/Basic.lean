/-!
# Types

A type is basic, or a container: an array, a struct, a dict entry, a variant or a maybe. A dict entry's key is basic by
its type; the other rules of formation are in `Ty.Form`. Arrays and structs are counted along every path, and a variant
starts a new count, for what it holds is no part of its type.
-/
namespace Marshal

/-- The basic types that are integers of a fixed width. A unix fd is an index into the descriptors sent along. -/
inductive IntKind where
  | byte | int16 | uint16 | int32 | uint32 | int64 | uint64 | unixFd
deriving DecidableEq, Repr

namespace IntKind

def width : IntKind → Nat
  | byte => 1
  | int16 | uint16 => 2
  | int32 | uint32 | unixFd => 4
  | int64 | uint64 => 8

def isSigned : IntKind → Bool
  | int16 | int32 | int64 => true
  | _ => false

end IntKind

inductive TextKind where
  | string | objectPath | signature
deriving DecidableEq, Repr

/-- The basic types, the only ones that can be the key of a dict entry. -/
inductive Basic where
  | int (kind : IntKind)
  | boolean
  | double
  | text (kind : TextKind)
deriving DecidableEq, Repr

inductive Ty where
  | basic (basic : Basic)
  | array (element : Ty)
  | struct (fields : List Ty)
  | entry (key : Basic) (value : Ty)
  | variant
  | maybe (inner : Ty)
deriving Repr, Inhabited

namespace Ty

abbrev byte : Ty := .basic (.int .byte)

mutual
def same : Ty → Ty → Bool
  | .basic a, .basic b => a == b
  | .array a, .array b => same a b
  | .struct as, .struct bs => sameAll as bs
  | .entry k a, .entry l b => k == l && same a b
  | .variant, .variant => true
  | .maybe a, .maybe b => same a b
  | _, _ => false

def sameAll : List Ty → List Ty → Bool
  | [], [] => true
  | a :: as, b :: bs => same a b && sameAll as bs
  | _, _ => false
end

mutual
theorem same_refl : (t : Ty) → same t t = true
  | .basic _ => by simp [same]
  | .array a => by simp [same, same_refl a]
  | .struct as => by simp [same, sameAll_refl as]
  | .entry _ a => by simp [same, same_refl a]
  | .variant => rfl
  | .maybe a => by simp [same, same_refl a]

theorem sameAll_refl : (ts : List Ty) → sameAll ts ts = true
  | [] => rfl
  | a :: as => by simp [sameAll, same_refl a, sameAll_refl as]
end

mutual
theorem eq_of_same : (a b : Ty) → same a b = true → a = b
  | .basic _, .basic _, h => by simp_all [same]
  | .array a, .array b, h => by rw [eq_of_same a b (by simpa [same] using h)]
  | .struct as, .struct bs, h => by rw [eq_of_sameAll as bs (by simpa [same] using h)]
  | .entry k a, .entry l b, h => by
    have h : k = l ∧ same a b = true := by simpa [same] using h
    rw [h.1, eq_of_same a b h.2]
  | .variant, .variant, _ => rfl
  | .maybe a, .maybe b, h => by rw [eq_of_same a b (by simpa [same] using h)]
  | .basic _, .array _, h | .basic _, .struct _, h | .basic _, .entry _ _, h | .basic _, .variant, h
  | .basic _, .maybe _, h | .array _, .basic _, h | .array _, .struct _, h | .array _, .entry _ _, h
  | .array _, .variant, h | .array _, .maybe _, h | .struct _, .basic _, h | .struct _, .array _, h
  | .struct _, .entry _ _, h | .struct _, .variant, h | .struct _, .maybe _, h | .entry _ _, .basic _, h
  | .entry _ _, .array _, h | .entry _ _, .struct _, h | .entry _ _, .variant, h | .entry _ _, .maybe _, h
  | .variant, .basic _, h | .variant, .array _, h | .variant, .struct _, h | .variant, .entry _ _, h
  | .variant, .maybe _, h | .maybe _, .basic _, h | .maybe _, .array _, h | .maybe _, .struct _, h
  | .maybe _, .entry _ _, h | .maybe _, .variant, h => by simp [same] at h

theorem eq_of_sameAll : (as bs : List Ty) → sameAll as bs = true → as = bs
  | [], [], _ => rfl
  | a :: as, b :: bs, h => by
    have h : same a b = true ∧ sameAll as bs = true := by simpa [sameAll] using h
    rw [eq_of_same a b h.1, eq_of_sameAll as bs h.2]
  | [], _ :: _, h | _ :: _, [], h => by simp [sameAll] at h
end

theorem same_iff {a b : Ty} : same a b = true ↔ a = b := ⟨eq_of_same a b, fun h => h ▸ same_refl a⟩

instance : DecidableEq Ty := fun a b => decidable_of_iff (same a b = true) same_iff

mutual
def arrayDepth : Ty → Nat
  | .basic _ | .variant => 0
  | .array t => arrayDepth t + 1
  | .struct ts => arrayDepths ts
  | .entry _ t | .maybe t => arrayDepth t

def arrayDepths : List Ty → Nat
  | [] => 0
  | t :: ts => max (arrayDepth t) (arrayDepths ts)
end

mutual
def structDepth : Ty → Nat
  | .basic _ | .variant => 0
  | .array t | .maybe t => structDepth t
  | .struct ts => structDepths ts + 1
  | .entry _ t => structDepth t + 1

def structDepths : List Ty → Nat
  | [] => 0
  | t :: ts => max (structDepth t) (structDepths ts)
end

def isEntry : Ty → Bool
  | .entry .. => true
  | _ => false

/-- The types of the members of a struct or dict entry, in order. -/
def members? : Ty → Option (List Ty)
  | .struct ts => some ts
  | .entry k t => some [.basic k, t]
  | _ => none

end Ty

end Marshal
