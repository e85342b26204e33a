import Mathlib.Tactic
import Marshal.Config.Merge
import Marshal.Proofs.Documents
/-!
# Merging in place

`Entries.merge` changes the mappings of a copy where they stand, and a mapping can stand in several places. Where none
that is merged into does (`Entries.Apart`), the merged mapping holds what `Document.mergeAll` makes of the documents.
`Place` is what carries this through the recursion: a mapping in memory with what is around it, which stays as it is
while the mapping changes.
-/
namespace Marshal

open Entries (find? set bound)

variable {K : Type}

/-! ## Other identities -/

namespace Node

variable {I J L : Type} (f : I → J) (g : J → L)

mutual
theorem relabel_relabel : ∀ d : Node K I, (d.relabel f).relabel g = d.relabel (g ∘ f)
  | .null | .boolean _ | .integer _ | .float _ | .text _ => rfl
  | .list ds => congrArg list (relabelAll_relabelAll ds)
  | .mapping _ es => congrArg (mapping _) (relabelIn_relabelIn es)

theorem relabelAll_relabelAll : ∀ ds : List (Node K I), relabelAll g (relabelAll f ds) = relabelAll (g ∘ f) ds
  | [] => rfl
  | d :: ds => congrArg₂ List.cons (relabel_relabel d) (relabelAll_relabelAll ds)

theorem relabelIn_relabelIn : ∀ es : Entries K I, relabelIn g (relabelIn f es) = relabelIn (g ∘ f) es
  | [] => rfl
  | e :: es => congrArg₂ List.cons (relabelEntry_relabelEntry e) (relabelIn_relabelIn es)

theorem relabelEntry_relabelEntry : ∀ e : K × Node K I, relabelEntry g (relabelEntry f e) = relabelEntry (g ∘ f) e
  | (k, d) => congrArg (Prod.mk k) (relabel_relabel d)
end

/-- A copy holds what the original does. -/
theorem value_relabel (d : Node K I) : (d.relabel f).value = d.value := relabel_relabel f _ d

variable (h : Nat → Nat)

mutual
theorem objects_relabel : ∀ d : Node K Nat, (d.relabel h).objects = d.objects.map fun o => (h o.1, relabelIn h o.2)
  | .null | .boolean _ | .integer _ | .float _ | .text _ => rfl
  | .list ds => objectsAmong_relabelAll ds
  | .mapping _ es => congrArg (List.cons _) (objectsIn_relabelIn es)

theorem objectsAmong_relabelAll : ∀ ds : List (Node K Nat),
    objectsAmong (relabelAll h ds) = (objectsAmong ds).map fun o => (h o.1, relabelIn h o.2)
  | [] => rfl
  | d :: ds => by
    rw [relabelAll, objectsAmong, objectsAmong, List.map_append, objects_relabel d, objectsAmong_relabelAll ds]

theorem objectsIn_relabelIn : ∀ es : Entries K Nat,
    objectsIn (relabelIn h es) = (objectsIn es).map fun o => (h o.1, relabelIn h o.2)
  | [] => rfl
  | e :: es => by
    rw [relabelIn, objectsIn, objectsIn, List.map_append, objectsOf_relabelEntry e, objectsIn_relabelIn es]

theorem objectsOf_relabelEntry : ∀ e : K × Node K Nat,
    objectsOf (relabelEntry h e) = (objectsOf e).map fun o => (h o.1, relabelIn h o.2)
  | (_, d) => objects_relabel d
end

theorem identities_relabel (d : Node K Nat) : (d.relabel h).identities = d.identities.map h := by
  rw [identities, identities, objects_relabel, List.map_map, List.map_map]
  rfl

end Node

/-! ## Entries and what is in them -/

namespace Entries

theorem objectsIn_append : ∀ es more : Entries K Nat,
    Node.objectsIn (es ++ more) = Node.objectsIn es ++ Node.objectsIn more
  | [], _ => rfl
  | e :: es, more => by
    rw [List.cons_append, Node.objectsIn, Node.objectsIn, objectsIn_append es more, List.append_assoc]

theorem identities_append (es more : Entries K Nat) : identities (es ++ more) = identities es ++ identities more := by
  rw [identities, objectsIn_append, List.map_append]
  rfl

theorem identities_cons (key : K) (d : Node K Nat) (es : Entries K Nat) :
    identities ((key, d) :: es) = d.identities ++ identities es := List.map_append ..

theorem identities_mapping (i : Nat) (es : Entries K Nat) :
    (Node.mapping i es).identities = i :: identities es := rfl

theorem updateIn_append {i : Nat} {f : Entries K Nat → Entries K Nat} : ∀ es more : Entries K Nat,
    Node.updateIn i f (es ++ more) = Node.updateIn i f es ++ Node.updateIn i f more
  | [], _ => rfl
  | _ :: es, more => congrArg (List.cons _) (updateIn_append es more)

variable {V : Type} [DecidableEq K] {key other : K} {c d : V}

theorem find?_append : ∀ es more : List (K × V), find? key (es ++ more) = (find? key es).or (find? key more)
  | [], _ => rfl
  | (k, d) :: es, more => by
    rw [List.cons_append, find?, find?]
    split
    · rfl
    · exact find?_append es more

theorem find?_eq_none_iff {es : List (K × V)} : find? key es = none ↔ key ∉ es.map Prod.fst := by
  induction es with
  | nil => exact iff_of_true rfl List.not_mem_nil
  | cons e es ih =>
    obtain ⟨k, d⟩ := e
    rw [find?, List.map_cons, List.mem_cons, not_or, ← ih, eq_comm (a := key)]
    by_cases hk : k = key
    · rw [if_pos hk]
      exact iff_of_false (Option.some_ne_none d) fun h => h.1 hk
    · rw [if_neg hk]
      exact (and_iff_right hk).symm

/-- The first entry of a key, with what is before it and behind it. -/
theorem exists_of_find? : ∀ {es : List (K × V)}, find? key es = some d →
    ∃ front back, es = front ++ (key, d) :: back ∧ ∀ c, set key c es = front ++ (key, c) :: back
  | (k, e) :: es, h => by
    rw [find?] at h
    split at h
    · rename_i hk
      cases h
      subst hk
      exact ⟨[], es, rfl, fun c => by rw [set, if_pos rfl]; rfl⟩
    · rename_i hk
      obtain ⟨front, back, rfl, hset⟩ := exists_of_find? h
      exact ⟨(k, e) :: front, back, rfl, fun c => by rw [set, if_neg hk, hset]; rfl⟩

variable {I J : Type}

theorem find?_relabelIn (f : I → J) : ∀ es : Entries K I,
    find? key (Node.relabelIn f es) = (find? key es).map (Node.relabel f)
  | [] => rfl
  | (k, d) :: es => by
    rw [Node.relabelIn, Node.relabelEntry, find?, find?, find?_relabelIn f es]
    split <;> rfl

theorem relabelIn_set (f : I → J) {d : Node K I} : ∀ es : Entries K I,
    Node.relabelIn f (set key d es) = set key (d.relabel f) (Node.relabelIn f es)
  | [] => rfl
  | (k, e) :: es => by
    rw [Node.relabelIn, Node.relabelEntry, set, set]
    split
    · rfl
    · rw [Node.relabelIn, relabelIn_set f es]
      rfl

theorem lt_bound : ∀ {is : List Nat} {i : Nat}, i ∈ is → i < bound is
  | j :: is, i, h => by
    have htail : i ∈ is → i < bound is := lt_bound
    rw [bound, List.foldr_cons]
    rcases List.mem_cons.1 h with rfl | h
    · omega
    · have := htail h
      rw [bound] at this
      omega

/-- An identity is in a mapping as often with a new entry as without it, but for the old entry and the new one. -/
theorem count_identities_set (key : K) (c : Node K Nat) (i : Nat) : ∀ es : Entries K Nat,
    (identities (set key c es)).count i + ((find? key es).elim [] Node.identities).count i =
      (identities es).count i + c.identities.count i
  | [] => by
    rw [set, identities_cons, List.count_append, find?]
    exact Nat.add_comm ..
  | (k, d) :: es => by
    rw [set, find?]
    split
    · simp only [identities_cons, List.count_append, Option.elim_some]
      omega
    · have ih := count_identities_set key c i es
      simp only [identities_cons, List.count_append]
      omega

end Entries

namespace Node

variable {i : Nat} {f : Entries K Nat → Entries K Nat}

mutual
/-- A mapping that stands nowhere cannot be changed. -/
theorem update_of_not_mem : ∀ {d : Node K Nat}, i ∉ d.identities → d.update i f = d
  | .null, _ | .boolean _, _ | .integer _, _ | .float _, _ | .text _, _ => rfl
  | .list _, h => congrArg list (updateAll_of_not_mem h)
  | .mapping j es, h => by
    rw [Entries.identities_mapping, List.mem_cons, not_or] at h
    rw [update, if_neg (Ne.symm h.1), updateIn_of_not_mem h.2]

theorem updateAll_of_not_mem : ∀ {ds : List (Node K Nat)}, i ∉ (objectsAmong ds).map Prod.fst → updateAll i f ds = ds
  | [], _ => rfl
  | d :: ds, h => by
    rw [objectsAmong, List.map_append, List.mem_append, not_or] at h
    exact congrArg₂ List.cons (update_of_not_mem h.1) (updateAll_of_not_mem h.2)

theorem updateIn_of_not_mem : ∀ {es : Entries K Nat}, i ∉ Entries.identities es → updateIn i f es = es
  | [], _ => rfl
  | e :: es, h => by
    rw [Entries.identities, objectsIn, List.map_append, List.mem_append, not_or] at h
    exact congrArg₂ List.cons (updateEntry_of_not_mem h.1) (updateIn_of_not_mem h.2)

theorem updateEntry_of_not_mem : ∀ {e : K × Node K Nat}, i ∉ (objectsOf e).map Prod.fst → updateEntry i f e = e
  | (k, _), h => congrArg (Prod.mk k) (update_of_not_mem h)
end

end Node

/-! ## A mapping and what is around it -/

namespace Entries

variable {place : Option Nat} {around : List Nat} {whole : Entries K Nat → Entries K Nat}
  {s : Entries K Nat} {key : K} {n : Nat}

/-- A mapping in memory, as what there is as a whole when its entries are given. The identities `around` them, its own
among them, stay the same. -/
structure Place (place : Option Nat) (around : List Nat) (whole : Entries K Nat → Entries K Nat) : Prop where
  entriesAt (s : Entries K Nat) (n : Nat) : (Target.mk (whole s) n).entriesAt place = s
  change (f : Entries K Nat → Entries K Nat) (s : Entries K Nat) (n : Nat) (h : ∀ i ∈ place, i ∉ identities s) :
    (Target.mk (whole s) n).change f place = whole (f s)
  find {i : Nat} (hi : i ∉ around) (s : Entries K Nat) :
    find? i (Node.objectsIn (whole s)) = find? i (Node.objectsIn s)
  update {i : Nat} (hi : i ∉ around) (f : Entries K Nat → Entries K Nat) (s : Entries K Nat) :
    Node.updateIn i f (whole s) = whole (Node.updateIn i f s)

/-- From a mapping to one that stands under one of its keys, and nowhere else. -/
theorem Place.inside (h : Place place around whole) {front back : Entries K Nat} {j : Nat}
    (haround : j ∉ around) (hfront : j ∉ identities front) (hback : j ∉ identities back) :
    Place (some j) (around ++ j :: (identities front ++ identities back))
      fun u => whole (front ++ (key, .mapping j u) :: back) where
  entriesAt s n := by
    rw [Target.entriesAt, h.find haround, objectsIn_append, find?_append, find?_eq_none_iff.2 hfront, Node.objectsIn,
      Node.objectsOf, Node.objects, List.cons_append, find?, if_pos rfl]
    rfl
  change f s n hs := by
    rw [Target.change, h.update haround, updateIn_append, Node.updateIn, Node.updateEntry, Node.update, if_pos rfl,
      Node.updateIn_of_not_mem hfront, Node.updateIn_of_not_mem hback, Node.updateIn_of_not_mem (hs j rfl)]
  find {i} hi s := by
    simp only [List.mem_append, List.mem_cons, not_or] at hi
    rw [h.find hi.1, objectsIn_append, find?_append, find?_eq_none_iff.2 hi.2.2.1, Node.objectsIn, find?_append,
      find?_eq_none_iff.2 hi.2.2.2, Node.objectsOf, Node.objects, find?, if_neg (Ne.symm hi.2.1), Option.or_none]
    rfl
  update {i} hi f s := by
    simp only [List.mem_append, List.mem_cons, not_or] at hi
    rw [h.update hi.1, updateIn_append, Node.updateIn, Node.updateEntry, Node.update, if_neg (Ne.symm hi.2.1),
      Node.updateIn_of_not_mem hi.2.2.1, Node.updateIn_of_not_mem hi.2.2.2]

/-- A place that can be written to: what is new, from `n` on, is neither in it nor around it. -/
structure Writable (place : Option Nat) (around : List Nat) (whole : Entries K Nat → Entries K Nat)
    (s : Entries K Nat) (n : Nat) : Prop extends Place place around whole where
  around_lt {i : Nat} : i ∈ around → i < n
  inside_lt {i : Nat} : i ∈ identities s → i < n
  own {i : Nat} : i ∈ place → i ∈ around ∧ i ∉ identities s

/-- A target in which a place has got other entries, and nothing else has changed. No identity from before is in more
places. -/
structure Becomes (whole : Entries K Nat → Entries K Nat) (s : Entries K Nat) (n : Nat) (t : Target K)
    (s' : Entries K Nat) : Prop where
  entries : t.entries = whole s'
  le : n ≤ t.next
  lt {i : Nat} : i ∈ identities s' → i < t.next
  count {i : Nat} : i < n → (identities s').count i ≤ (identities s).count i

variable {t : Target K} {s' s'' : Entries K Nat}

theorem Becomes.eq (h : Becomes whole s n t s') : t = ⟨whole s', t.next⟩ := by
  rw [← h.entries]

theorem Writable.becomes (hw : Writable place around whole s n) (h : Becomes whole s n t s') :
    Writable place around whole s' t.next where
  toPlace := hw.toPlace
  around_lt hi := (hw.around_lt hi).trans_le h.le
  inside_lt := h.lt
  own {i} hi := by
    obtain ⟨haround, hs⟩ := hw.own hi
    have hcount := h.count (hw.around_lt haround)
    rw [List.count_eq_zero.2 hs] at hcount
    exact ⟨haround, List.count_eq_zero.1 (Nat.le_zero.1 hcount)⟩

theorem Writable.refl (hw : Writable place around whole s n) : Becomes whole s n ⟨whole s, n⟩ s :=
  ⟨rfl, le_rfl, hw.inside_lt, fun _ => le_rfl⟩

theorem Becomes.trans {t' : Target K} (h : Becomes whole s n t s') (h' : Becomes whole s' t.next t' s'') :
    Becomes whole s n t' s'' where
  entries := h'.entries
  le := h.le.trans h'.le
  lt := h'.lt
  count hi := (h'.count (hi.trans_le h.le)).trans (h.count hi)

variable [DecidableEq K] {c d : Node K Nat}

theorem mem_identities_of_find? {i : Nat} (h : find? key s = some d) (hi : i ∈ d.identities) : i ∈ identities s := by
  obtain ⟨front, back, rfl, -⟩ := exists_of_find? h
  rw [identities_append, identities_cons]
  exact List.mem_append_right _ (List.mem_append_left _ hi)

theorem mem_identities_set {i : Nat} (h : i ∈ identities (set key c s)) : i ∈ identities s ∨ i ∈ c.identities := by
  have hcount := count_identities_set key c i s
  rw [← List.count_pos_iff] at h ⊢
  rw [← List.count_pos_iff]
  omega

/-- A place with one entry changed, whose identities are new or were those of the old one. -/
theorem Writable.becomes_set (hw : Writable place around whole s n) {m : Nat} (hm : n ≤ m)
    (hlt : ∀ i ∈ c.identities, i < m)
    (hcount : ∀ i < n, c.identities.count i ≤ ((find? key s).elim [] Node.identities).count i) :
    Becomes whole s n ⟨whole (set key c s), m⟩ (set key c s) where
  entries := rfl
  le := hm
  lt hi := (mem_identities_set hi).elim (fun h => (hw.inside_lt h).trans_le hm) (hlt _)
  count {i} hi := by
    have hset := count_identities_set key c i s
    have hc := hcount i hi
    omega

/-- To put a copy in a place changes the place only. -/
theorem Writable.put (hw : Writable place around whole s n) (key : K) (d : Node K Nat) :
    ∃ c m, (Target.mk (whole s) n).put place key d = ⟨whole (set key c s), m⟩ ∧ c.value = d.value ∧
      Becomes whole s n ⟨whole (set key c s), m⟩ (set key c s) := by
  refine ⟨d.relabel (n + ·), n + bound d.identities, ?_, Node.value_relabel _ _, hw.becomes_set (by omega) ?_ ?_⟩
  · rw [Target.put, hw.change _ _ _ fun i hi => (hw.own hi).2]
  all_goals
    simp only [Node.identities_relabel, List.mem_map]
  · rintro i ⟨j, hj, rfl⟩
    exact Nat.add_lt_add_left (lt_bound hj) n
  · intro i hi
    rw [List.count_eq_zero.2]
    · exact Nat.zero_le _
    · intro hmem
      obtain ⟨j, -, rfl⟩ := List.mem_map.1 hmem
      omega

/-! ### Merging -/

/-- Whether no mapping that a document meets with a mapping, where the old one is, stands in two places. All mappings
that there are have the given identities. -/
def ApartFrom (all : List Nat) (old : Option (Node K Nat)) (d : Node K Nat) : Prop :=
  ∀ path i u j es, old.bind (Node.at? path) = some (.mapping i u) → Node.at? path d = some (.mapping j es) →
    all.count i ≤ 1

/-- Whether no mapping that is merged into stands in two places. -/
def Apart (all : List Nat) (base overrides : Entries K Nat) : Prop :=
  ∀ key d, find? key overrides = some d → ApartFrom all (find? key base) d

/-- A mapping that stands nowhere else can be written to as its surroundings can. -/
theorem Writable.inside (hw : Writable place around whole s n) {j : Nat} {u : Entries K Nat}
    (hold : find? key s = some (.mapping j u)) (hcount : (around ++ identities s).count j ≤ 1) :
    ∃ around', Writable (some j) around' (fun u => whole (set key (.mapping j u) s)) u n ∧
      ∀ i, (around' ++ identities u).count i = (around ++ identities s).count i := by
  obtain ⟨front, back, rfl, hset⟩ := exists_of_find? hold
  simp only [hset]
  simp only [identities_append, identities_cons, identities_mapping, List.count_append, List.cons_append,
    List.count_cons_self] at hcount
  have haround : j ∉ around := List.count_eq_zero.1 (by omega)
  have hfront : j ∉ identities front := List.count_eq_zero.1 (by omega)
  have hback : j ∉ identities back := List.count_eq_zero.1 (by omega)
  have hu : j ∉ identities u := List.count_eq_zero.1 (by omega)
  have hinside {i : Nat} : i ∈ identities front ∨ i = j ∨ i ∈ identities u ∨ i ∈ identities back → i < n := fun hi => by
    refine hw.inside_lt ?_
    simpa only [identities_append, identities_cons, identities_mapping, List.mem_append, List.mem_cons, or_assoc]
  refine ⟨around ++ j :: (identities front ++ identities back), ⟨hw.inside haround hfront hback, fun hi => ?_,
    fun hi => hinside (.inr (.inr (.inl hi))), fun hi => ?_⟩, fun i => ?_⟩
  · simp only [List.mem_append, List.mem_cons] at hi
    rcases hi with hi | hi | hi | hi
    · exact hw.around_lt hi
    · exact hinside (.inr (.inl hi))
    · exact hinside (.inl hi)
    · exact hinside (.inr (.inr (.inr hi)))
  · obtain rfl := Option.mem_some_iff.1 hi
    exact ⟨List.mem_append_right _ List.mem_cons_self, hu⟩
  · simp only [identities_append, identities_cons, identities_mapping, List.count_append, List.cons_append,
      List.count_cons]
    omega

theorem mem_identities_of_at? {i : Nat} {u : Entries K Nat} : ∀ {path : List K} {d : Node K Nat},
    Node.at? path d = some (.mapping i u) → i ∈ d.identities
  | [], d, h => by
    cases h
    exact List.mem_cons_self
  | key :: path, .mapping j es, h => by
    obtain ⟨e, he, h⟩ := Option.bind_eq_some_iff.1 h
    exact List.mem_cons_of_mem _ (mem_identities_of_find? he (mem_identities_of_at? h))

theorem find?_value (key : K) (es : Entries K Nat) : find? key es.value = (find? key es).map Node.value :=
  find?_relabelIn _ es

theorem value_set (key : K) (c : Node K Nat) (es : Entries K Nat) :
    Entries.value (set key c es) = set key c.value es.value :=
  relabelIn_set _ es

/-- What is merged under one key leaves the others apart. -/
theorem Apart.tail {es : Entries K Nat} (hw : Writable place around whole s n)
    (h : Apart (around ++ identities s) s ((key, d) :: es)) (hkey : find? key es = none)
    (hb : Becomes whole s n t (set key c s)) : Apart (around ++ identities (set key c s)) (set key c s) es := by
  intro other e he path i u j fs hold hnew
  have hne : key ≠ other := by
    rintro rfl
    cases hkey.symm.trans he
  rw [find?_set, if_neg hne] at hold
  have hall := h other e (by rw [find?, if_neg hne, he]) path i u j fs hold hnew
  obtain ⟨old, hfind, hold⟩ := Option.bind_eq_some_iff.1 hold
  have hcount := hb.count (hw.inside_lt (mem_identities_of_find? hfind (mem_identities_of_at? hold)))
  rw [List.count_append] at hall ⊢
  omega

open Target in
mutual
/-- The induction is on what is merged. It holds of every place: the entries that it gets there are those that documents
would have. -/
theorem mergeAll_place : ∀ (es : Entries K Nat) {place around whole s n}, Writable place around whole s n →
    Document.areKeyed es.value = true → Apart (around ++ identities s) s es →
      ∃ s', Becomes whole s n (mergeAll place ⟨whole s, n⟩ es) s' ∧
        s'.value = Document.mergeAll s.value es.value
  | [], _, _, _, s, _, hw, _, _ => ⟨s, hw.refl, rfl⟩
  | (key, d) :: es, place, around, whole, s, n, hw, hkeyed, hapart => by
    obtain ⟨hkey, hd, hes⟩ := Document.areKeyed_cons.1 hkeyed
    have hfrom : ApartFrom (around ++ identities s) (find? key s) d := hapart key d (by rw [find?, if_pos rfl])
    obtain ⟨c, m, heq, hc, hb⟩ := mergeUnder_place d hw hd hfrom
    have hnone : find? key es = none := by
      rw [← Option.map_eq_none_iff, ← find?_value]
      exact hkey
    obtain ⟨s', hb', hs'⟩ := mergeAll_place es (hw.becomes hb) hes (hapart.tail hw hnone hb)
    rw [mergeAll, mergeEntry, hw.entriesAt, heq]
    refine ⟨s', hb.trans hb', ?_⟩
    rw [hs', value_set, hc, ← find?_value]
    rfl

theorem mergeUnder_place : ∀ (d : Node K Nat) {place around whole s n key}, Writable place around whole s n →
    Document.isKeyed d.value = true → ApartFrom (around ++ identities s) (find? key s) d →
      ∃ c m, mergeUnder place ⟨whole s, n⟩ key (find? key s) d = ⟨whole (set key c s), m⟩ ∧
        c.value = Document.layOver ((find? key s).map Node.value) d.value ∧
        Becomes whole s n ⟨whole (set key c s), m⟩ (set key c s)
  | .null, _, _, _, _, _, _, hw, _, _ => hw.put _ _
  | .boolean _, _, _, _, _, _, _, hw, _, _ => hw.put _ _
  | .integer _, _, _, _, _, _, _, hw, _, _ => hw.put _ _
  | .float _, _, _, _, _, _, _, hw, _, _ => hw.put _ _
  | .text _, _, _, _, _, _, _, hw, _, _ => hw.put _ _
  | .list _, _, _, _, _, _, _, hw, _, _ => hw.put _ _
  | .mapping i es, place, around, whole, s, n, key, hw, hkeyed, hfrom => by
    cases hold : find? key s with
    | none => exact hw.put key (.mapping i es)
    | some old =>
      cases old with
      | null | boolean | integer | float | text | list => exact hw.put key (.mapping i es)
      | mapping j u =>
        rw [hold] at hfrom
        obtain ⟨around', hinside, hcount⟩ := hw.inside hold (hfrom [] j u i es rfl rfl)
        have hapart : Apart (around' ++ identities u) u es := fun other d hd path i' u' j' es' hold' hnew => by
          rw [hcount]
          exact hfrom (other :: path) i' u' j' es' hold' (by rwa [Node.at?, hd])
        obtain ⟨u', hb, hu'⟩ := mergeAll_place es hinside hkeyed hapart
        have hwhole : whole (set key (.mapping j u) s) = whole s := congrArg whole (set_of_find? hold)
        rw [hwhole] at hb
        refine ⟨.mapping j u', _, hb.eq, congrArg (Node.mapping ()) hu', hw.becomes_set hb.le ?_ ?_⟩
        · refine List.forall_mem_cons.2 ⟨?_, fun i hi => hb.lt hi⟩
          exact (hw.inside_lt (mem_identities_of_find? hold List.mem_cons_self)).trans_le hb.le
        · intro i hi
          have hcount := hb.count hi
          rw [hold, Option.elim_some, identities_mapping, identities_mapping, List.count_cons, List.count_cons]
          omega
end

theorem find?_updateIn {i : Nat} {f : Entries K Nat → Entries K Nat} : ∀ es : Entries K Nat,
    find? key (Node.updateIn i f es) = (find? key es).map (Node.update i f)
  | [] => rfl
  | (k, d) :: es => by
    rw [Node.updateIn, Node.updateEntry, find?, find?, find?_updateIn es]
    split <;> rfl

theorem find?_put_eq_none {other : K} (h : find? key t.entries = none) (hother : place = none → other ≠ key) :
    find? key (t.put place other d).entries = none := by
  cases place with
  | none => exact (find?_set t.entries).trans (by rw [if_neg (hother rfl), h])
  | some i => exact (find?_updateIn t.entries).trans (by rw [h, Option.map_none])

open Target in
mutual
theorem find?_mergeAll_eq_none : ∀ {es : Entries K Nat} {t : Target K} {place}, find? key t.entries = none →
    (place = none → find? key es = none) → find? key (mergeAll place t es).entries = none
  | [], _, _, h, _ => h
  | (k, d) :: es, t, place, h, hes => by
    have hne (hplace : place = none) : k ≠ key := fun heq => by
      have hnone := hes hplace
      rw [find?, if_pos heq] at hnone
      cases hnone
    rw [mergeAll, mergeEntry]
    refine find?_mergeAll_eq_none (find?_mergeUnder_eq_none h hne) fun hplace => ?_
    have hnone := hes hplace
    rwa [find?, if_neg (hne hplace)] at hnone

theorem find?_mergeUnder_eq_none : ∀ {d : Node K Nat} {t : Target K} {place other old}, find? key t.entries = none →
    (place = none → other ≠ key) → find? key (mergeUnder place t other old d).entries = none
  | .null, _, _, _, _, h, hother => find?_put_eq_none h hother
  | .boolean _, _, _, _, _, h, hother => find?_put_eq_none h hother
  | .integer _, _, _, _, _, h, hother => find?_put_eq_none h hother
  | .float _, _, _, _, _, h, hother => find?_put_eq_none h hother
  | .text _, _, _, _, _, h, hother => find?_put_eq_none h hother
  | .list _, _, _, _, _, h, hother => find?_put_eq_none h hother
  | .mapping _ _, _, _, _, _, h, hother => by
    unfold mergeUnder
    split
    · exact find?_mergeAll_eq_none h nofun
    · exact find?_put_eq_none h hother
end

/-- No key comes from nowhere. -/
theorem find?_merge_eq_none {base overrides : Entries K Nat} (hbase : find? key base = none)
    (h : find? key overrides = none) : find? key (merge base overrides) = none :=
  find?_mergeAll_eq_none hbase fun _ => h

end Entries

end Marshal
