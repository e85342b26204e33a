import Marshal.Config.Document
/-!
# One mapping laid over another

`Entries.merge` copies a mapping and puts the entries of another one into the copy, one after the other. Where both have
a mapping under a key, the new entries go into the mapping that stands there, which changes it wherever else it stands,
and anything else is replaced by a copy of the new one. What is one object in the original is one object in a copy, and
none that was there before.
-/
namespace Marshal

namespace Node

variable {K : Type}

mutual
/-- The mappings in a document, with their identities and their entries. -/
def objects : Node K Nat → List (Nat × Entries K Nat)
  | .list ds => objectsAmong ds
  | .mapping i es => (i, es) :: objectsIn es
  | _ => []

def objectsAmong : List (Node K Nat) → List (Nat × Entries K Nat)
  | [] => []
  | d :: ds => objects d ++ objectsAmong ds

def objectsIn : Entries K Nat → List (Nat × Entries K Nat)
  | [] => []
  | e :: es => objectsOf e ++ objectsIn es

def objectsOf : K × Node K Nat → List (Nat × Entries K Nat)
  | (_, d) => objects d
end

mutual
/-- Changes the entries of a mapping wherever it stands. -/
def update (i : Nat) (f : Entries K Nat → Entries K Nat) : Node K Nat → Node K Nat
  | .list ds => .list (updateAll i f ds)
  | .mapping j es => .mapping j (if j = i then f (updateIn i f es) else updateIn i f es)
  | d => d

def updateAll (i : Nat) (f : Entries K Nat → Entries K Nat) : List (Node K Nat) → List (Node K Nat)
  | [] => []
  | d :: ds => update i f d :: updateAll i f ds

def updateIn (i : Nat) (f : Entries K Nat → Entries K Nat) : Entries K Nat → Entries K Nat
  | [] => []
  | e :: es => updateEntry i f e :: updateIn i f es

def updateEntry (i : Nat) (f : Entries K Nat → Entries K Nat) : K × Node K Nat → K × Node K Nat
  | (k, d) => (k, update i f d)
end

def identities (d : Node K Nat) : List Nat := d.objects.map Prod.fst

end Node

namespace Entries

variable {K : Type}

def identities (es : Entries K Nat) : List Nat := (Node.objectsIn es).map Prod.fst

/-- The least number that is greater than each of a list. -/
def bound (is : List Nat) : Nat := is.foldr (fun i n => max (i + 1) n) 0

/-- A mapping that is merged into. No identity from `next` on is in use. -/
structure Target (K : Type) where
  entries : Entries K Nat
  next : Nat

namespace Target

/-- The entries at a place, which is a mapping inside or else the outermost one. -/
def entriesAt (t : Target K) : (place : Option Nat) → Entries K Nat
  | none => t.entries
  | some i => (find? i (Node.objectsIn t.entries)).getD []

def change (t : Target K) (f : Entries K Nat → Entries K Nat) : (place : Option Nat) → Entries K Nat
  | none => f t.entries
  | some i => Node.updateIn i f t.entries

variable [DecidableEq K]

/-- Puts a copy of a document under a key. -/
def put (t : Target K) (place : Option Nat) (key : K) (d : Node K Nat) : Target K :=
  ⟨t.change (set key (d.relabel (t.next + ·))) place, t.next + bound d.identities⟩

mutual
def mergeAll (place : Option Nat) (t : Target K) : Entries K Nat → Target K
  | [] => t
  | e :: es => mergeAll place (mergeEntry place t e) es

def mergeEntry (place : Option Nat) (t : Target K) : K × Node K Nat → Target K
  | (key, d) => mergeUnder place t key (find? key (t.entriesAt place)) d

/-- Merges a document into what stands under a key. -/
def mergeUnder (place : Option Nat) (t : Target K) (key : K) (old : Option (Node K Nat)) : Node K Nat → Target K
  | .mapping i es =>
    match old with
    | some (.mapping j _) => mergeAll (some j) t es
    | _ => t.put place key (.mapping i es)
  | d => t.put place key d
end

end Target

def merge [DecidableEq K] (base overrides : Entries K Nat) : Entries K Nat :=
  (Target.mergeAll none ⟨base, bound base.identities⟩ overrides).entries

end Entries

end Marshal
