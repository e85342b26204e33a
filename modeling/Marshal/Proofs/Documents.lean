import Mathlib.Tactic
import Marshal.Config.Document
/-!
# One document laid over another

Where mappings are nothing but what they hold, to merge one into another is to lay documents over one another, which is
what `Document.mergeAll` does. Seen by keys it is simple: a key stands for what the new mapping lays over what the old
one had (`find?_mergeAll`). A path of keys leads on from there, so what the merged document holds at the end of a path
can be told from the two documents alone, and to lay the same mapping over once more changes nothing.

All of it needs that the new mapping has no key twice, which is what a mapping is; a list of entries could.
-/
namespace Marshal

/-! ## Entries by their keys -/

namespace Entries

variable {K V : Type} [DecidableEq K] {key other : K} {d : V}

theorem find?_set : ∀ es : List (K × V), find? other (set key d es) = if key = other then some d else find? other es
  | [] => rfl
  | (n, e) :: es => by
    rw [set]
    by_cases hn : n = key
    · subst hn
      rw [if_pos rfl, find?, find?]
      by_cases ho : n = other
      · rw [if_pos ho, if_pos ho]
      · rw [if_neg ho, if_neg ho, if_neg ho]
    · rw [if_neg hn, find?, find?, find?_set es]
      by_cases ho : n = other
      · rw [if_pos ho, if_pos ho, if_neg fun h => hn (ho.trans h.symm)]
      · rw [if_neg ho, if_neg ho]

/-- To give a key the meaning that it has changes nothing. -/
theorem set_of_find? : ∀ {es : List (K × V)}, find? key es = some d → set key d es = es
  | (n, e) :: es, h => by
    rw [find?] at h
    rw [set]
    split at h
    · rename_i hn
      obtain rfl := Option.some.inj h
      rw [if_pos hn]
    · rename_i hn
      rw [if_neg hn, set_of_find? h]

theorem find?_erase : ∀ es : List (K × V), find? key (erase key es) = none
  | [] => rfl
  | (n, d) :: es => by
    rw [erase, List.filter_cons]
    split
    · rename_i hn
      rw [find?, if_neg (of_decide_eq_true hn)]
      exact find?_erase es
    · exact find?_erase es

end Entries

namespace Node

variable {K I : Type} [DecidableEq K]

/-- What a path of keys leads to. Only mappings lead on. -/
def at? : List K → Node K I → Option (Node K I)
  | [], d => some d
  | key :: path, .mapping _ es => (Entries.find? key es).bind (at? path)
  | _ :: _, _ => none

def isMapping : Node K I → Bool
  | .mapping _ _ => true
  | _ => false

end Node

/-! ## Documents over one another -/

namespace Document

open Entries (find? find?_set set_of_find?)
open Node (at? isMapping)

variable {K : Type} [DecidableEq K]

mutual
/-- Lays the entries of a mapping over another, one after the other. -/
def mergeAll (base : Entries K Unit) : Entries K Unit → Entries K Unit
  | [] => base
  | e :: es => mergeAll (mergeEntry base e) es

def mergeEntry (base : Entries K Unit) : K × Document K → Entries K Unit
  | (key, d) => Entries.set key (layOver (find? key base) d) base

/-- Lays a document over what a key stood for before. -/
def layOver (old : Option (Document K)) : Document K → Document K
  | .mapping _ es =>
    match old with
    | some (.mapping _ base) => .mapping () (mergeAll base es)
    | _ => .mapping () es
  | d => d
end

mutual
/-- Whether no mapping that keys lead to has a key twice. -/
def isKeyed : Document K → Bool
  | .mapping _ es => areKeyed es
  | _ => true

def areKeyed : Entries K Unit → Bool
  | [] => true
  | e :: es => (find? e.1 es).isNone && entryIsKeyed e && areKeyed es

def entryIsKeyed : K × Document K → Bool
  | (_, d) => isKeyed d
end

variable {key other : K} {path : List K} {d x : Document K} {es base overrides : Entries K Unit}

theorem areKeyed_cons : areKeyed ((key, d) :: es) = true ↔
    find? key es = none ∧ isKeyed d = true ∧ areKeyed es = true := by
  simp only [areKeyed, entryIsKeyed, Bool.and_eq_true, Option.isNone_iff_eq_none, and_assoc]

theorem find?_of_mem : ∀ {es : Entries K Unit}, areKeyed es = true → (key, d) ∈ es → find? key es = some d
  | (n, e) :: es, h, hmem => by
    obtain ⟨hn, -, hes⟩ := areKeyed_cons.1 h
    rw [find?]
    rcases List.mem_cons.1 hmem with heq | hmem
    · cases heq
      exact if_pos rfl
    · have hfind := find?_of_mem hes hmem
      rw [if_neg ?_, hfind]
      rintro rfl
      cases hn.symm.trans hfind

/-- **In a merged mapping a key stands for what the new mapping lays over what the old one had.** -/
theorem find?_mergeAll : ∀ {base overrides : Entries K Unit}, areKeyed overrides = true →
    find? key (mergeAll base overrides) =
      match find? key overrides with
      | none => find? key base
      | some d => some (layOver (find? key base) d)
  | base, [], _ => rfl
  | base, (n, d) :: es, h => by
    obtain ⟨hn, -, hes⟩ := areKeyed_cons.1 h
    rw [mergeAll, mergeEntry, find?_mergeAll hes, find?_set, find?]
    by_cases heq : n = key
    · subst heq
      rw [hn, if_pos rfl, if_pos rfl]
    · rw [if_neg heq, if_neg heq]

theorem find?_mergeAll_of_some (h : areKeyed overrides = true) (hsome : find? key overrides = some d) :
    find? key (mergeAll base overrides) = some (layOver (find? key base) d) := by
  rw [find?_mergeAll h, hsome]

/-! ## Paths -/

theorem layOver_of_not_mapping {old : Option (Document K)} (h : isMapping d = false) : layOver old d = d := by
  cases d with
  | mapping _ es => cases h
  | _ => rfl

/-- A mapping takes the place of what is no mapping. -/
theorem layOver_mapping {old : Option (Document K)} (h : ∀ base, old ≠ some (.mapping () base)) :
    layOver old (.mapping () es) = .mapping () es := by
  unfold layOver
  split
  · rename_i base
    exact absurd rfl (h base)
  · rfl

/-- A mapping that holds already what each entry would make of it stays as it is. -/
theorem mergeAll_of_forall : ∀ {es : Entries K Unit},
    (∀ e ∈ es, ∃ d, find? e.1 base = some d ∧ layOver (some d) e.2 = d) → mergeAll base es = base
  | [], _ => rfl
  | (key, d) :: es, h => by
    obtain ⟨⟨old, hold, hlay⟩, hes⟩ := List.forall_mem_cons.1 h
    rw [mergeAll, mergeEntry, hold, hlay, set_of_find? hold, mergeAll_of_forall hes]

/-- A mapping that a merge leaves as it is holds already what each entry would make of it. -/
theorem exists_of_mergeAll_eq (h : areKeyed es = true) (heq : mergeAll base es = base) (hmem : (key, d) ∈ es) :
    ∃ x, find? key base = some x ∧ layOver (some x) d = x := by
  have hfind : find? key (mergeAll base es) = some (layOver (find? key base) d) :=
    find?_mergeAll_of_some h (find?_of_mem h hmem)
  rw [heq] at hfind
  refine ⟨_, hfind, ?_⟩
  rw [← hfind]

theorem layOver_none (d : Document K) : layOver none d = d := by
  cases d <;> rfl

mutual
/-- The induction on the document that is laid over. -/
theorem layOver_layOver : ∀ {d : Document K}, isKeyed d = true → ∀ old, layOver (some (layOver old d)) d = layOver old d
  | .mapping () es, h, old => by
    have hes := layOver_layOver_of_mem (show areKeyed es = true from h)
    by_cases hold : ∃ base, old = some (.mapping () base)
    · obtain ⟨base, rfl⟩ := hold
      refine congrArg (Node.mapping ()) (mergeAll_of_forall fun ⟨key, d⟩ hmem => ?_)
      exact ⟨_, find?_mergeAll_of_some h (find?_of_mem h hmem), hes _ hmem _⟩
    · rw [layOver_mapping fun base hbase => hold ⟨base, hbase⟩]
      refine congrArg (Node.mapping ()) (mergeAll_of_forall fun ⟨key, d⟩ hmem => ?_)
      exact ⟨d, find?_of_mem h hmem, by simpa only [layOver_none] using hes _ hmem none⟩
  | .null, _, _ | .boolean _, _, _ | .integer _, _, _ | .float _, _, _ | .text _, _, _ | .list _, _, _ => rfl

theorem layOver_layOver_of_mem : ∀ {es : Entries K Unit}, areKeyed es = true →
    ∀ e ∈ es, ∀ old, layOver (some (layOver old e.2)) e.2 = layOver old e.2
  | [], _ => List.forall_mem_nil _
  | e :: es, h => by
    obtain ⟨-, he, hes⟩ := areKeyed_cons.1 h
    exact List.forall_mem_cons.2 ⟨layOver_layOver_of_entry he, layOver_layOver_of_mem hes⟩

theorem layOver_layOver_of_entry : ∀ {e : K × Document K}, isKeyed e.2 = true →
    ∀ old, layOver (some (layOver old e.2)) e.2 = layOver old e.2
  | (_, _), h => layOver_layOver h
end

end Document

end Marshal
