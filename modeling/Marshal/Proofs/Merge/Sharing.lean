import Marshal.Proofs.Merge.Place
/-!
# Merging what is shared

In memory a mapping has the same entries wherever it stands (`Coherent`), and a merge leaves it so
(`Entries.Target.Sound.mergeAll`), although what it copies can be shared: the copies are changed in all their places,
as the mappings that they stand in are. To merge the same mapping once more puts in each place what the place holds
already, so that nothing changes in the others either (`Entries.Target.mergeAll_same`). With `Entries.value_merge` this
gives the law of leaves for mappings in memory, `Entries.merge_leafwise`.
-/
namespace Marshal

open Entries (find? bound)

variable {K : Type}

/-! ## One mapping in several places -/

/-- Whether mappings with one identity have the same entries. -/
def Coherent (os : List (Nat × Entries K Nat)) : Prop := ∃ contents : Nat → Entries K Nat, ∀ o ∈ os, o.2 = contents o.1

namespace Coherent

variable {os cs : List (Nat × Entries K Nat)} {n : Nat}

theorem mono (h : Coherent os) (hsub : cs ⊆ os) : Coherent cs := by
  obtain ⟨contents, h⟩ := h
  exact ⟨contents, fun o ho => h o (hsub ho)⟩

theorem eq {i : Nat} {s s' : Entries K Nat} (h : Coherent os) (hs : (i, s) ∈ os) (hs' : (i, s') ∈ os) : s = s' := by
  obtain ⟨contents, h⟩ := h
  exact (h _ hs).trans (h _ hs').symm

/-- A change that each mapping undergoes in all its places. -/
theorem map (h : Coherent os) (f : Nat → Entries K Nat → Entries K Nat) :
    Coherent (os.map fun o => (o.1, f o.1 o.2)) := by
  obtain ⟨contents, h⟩ := h
  refine ⟨fun i => f i (contents i), List.forall_mem_map.2 fun o ho => ?_⟩
  exact congrArg (f o.1) (h o ho)

theorem copy (h : Coherent os) (n : Nat) :
    Coherent (os.map fun o => (n + o.1, Node.relabelIn (n + ·) o.2)) := by
  obtain ⟨contents, h⟩ := h
  refine ⟨fun i => Node.relabelIn (n + ·) (contents (i - n)), List.forall_mem_map.2 fun o ho => ?_⟩
  simp only [h o ho, Nat.add_sub_cancel_left]

/-- New mappings beside those that there were. -/
theorem append (h : Coherent os) (hc : Coherent cs) (hlt : ∀ o ∈ os, o.1 < n) (hle : ∀ o ∈ cs, n ≤ o.1) :
    Coherent (os ++ cs) := by
  obtain ⟨contents, h⟩ := h
  obtain ⟨contents', hc⟩ := hc
  refine ⟨fun i => if i < n then contents i else contents' i, List.forall_mem_append.2 ⟨fun o ho => ?_, fun o ho => ?_⟩⟩
  · exact (h o ho).trans (if_pos (hlt o ho)).symm
  · exact (hc o ho).trans (if_neg (hle o ho).not_gt).symm

end Coherent

/-- Two lists, each of old things and of new ones. -/
theorem append_subset_append_append {α : Type} {as bs old old' new : List α} (h : as ⊆ old ++ new)
    (h' : bs ⊆ old' ++ new) : as ++ bs ⊆ old ++ old' ++ new := by
  refine List.append_subset.2 ⟨List.Subset.trans h ?_, List.Subset.trans h' ?_⟩
  · rw [List.append_assoc]
    exact List.append_subset.2 ⟨List.subset_append_left _ _,
      List.subset_append_of_subset_right _ (List.subset_append_right _ _)⟩
  · rw [List.append_assoc]
    exact List.subset_append_right _ _

namespace Node

mutual
/-- What stands in a mapping of a document stands in the document. -/
theorem objectsIn_subset_objects {i : Nat} {s : Entries K Nat} : ∀ {d : Node K Nat}, (i, s) ∈ d.objects →
    objectsIn s ⊆ d.objects
  | .list _, h => objectsIn_subset_objectsAmong h
  | .mapping _ es, h => by
    rcases List.mem_cons.1 h with heq | h
    · cases heq
      exact List.subset_cons_self _ _
    · exact List.Subset.trans (objectsIn_subset_objectsIn h) (List.subset_cons_self _ _)

theorem objectsIn_subset_objectsAmong {i : Nat} {s : Entries K Nat} : ∀ {ds : List (Node K Nat)},
    (i, s) ∈ objectsAmong ds → objectsIn s ⊆ objectsAmong ds
  | d :: ds, h => by
    rw [objectsAmong] at h ⊢
    rcases List.mem_append.1 h with h | h
    · exact List.subset_append_of_subset_left _ (objectsIn_subset_objects h)
    · exact List.subset_append_of_subset_right _ (objectsIn_subset_objectsAmong h)

theorem objectsIn_subset_objectsIn {i : Nat} {s : Entries K Nat} : ∀ {es : Entries K Nat},
    (i, s) ∈ objectsIn es → objectsIn s ⊆ objectsIn es
  | e :: es, h => by
    rw [objectsIn] at h ⊢
    rcases List.mem_append.1 h with h | h
    · exact List.subset_append_of_subset_left _ (objectsIn_subset_objectsOf h)
    · exact List.subset_append_of_subset_right _ (objectsIn_subset_objectsIn h)

theorem objectsIn_subset_objectsOf {i : Nat} {s : Entries K Nat} : ∀ {e : K × Node K Nat},
    (i, s) ∈ objectsOf e → objectsIn s ⊆ objectsOf e
  | (_, _), h => objectsIn_subset_objects h
end

variable [DecidableEq K] {i : Nat} {key : K} {c : Node K Nat}

theorem objectsIn_set_subset : ∀ es : Entries K Nat, objectsIn (Entries.set key c es) ⊆ objectsIn es ++ c.objects
  | [] => List.append_subset.2 ⟨List.subset_append_right _ _, List.nil_subset _⟩
  | (k, d) :: es => by
    rw [Entries.set]
    split
    · exact append_subset_append_append (List.subset_append_right _ _) (List.subset_append_left _ _)
    · exact append_subset_append_append (List.subset_append_left _ _) (objectsIn_set_subset es)

/-- The entries of a mapping after a new entry was put into mapping `i` wherever that stands. -/
def updated (i : Nat) (key : K) (c : Node K Nat) (j : Nat) (s : Entries K Nat) : Entries K Nat :=
  if j = i then Entries.set key c (updateIn i (Entries.set key c) s) else updateIn i (Entries.set key c) s

/-- Changes what is the same in two places in the same way. -/
def updatedObjects (i : Nat) (key : K) (c : Node K Nat) (os : List (Nat × Entries K Nat)) :
    List (Nat × Entries K Nat) :=
  os.map fun o => (o.1, updated i key c o.1 o.2)

mutual
theorem objects_update_subset : ∀ d : Node K Nat,
    (d.update i (Entries.set key c)).objects ⊆ updatedObjects i key c d.objects ++ c.objects
  | .null | .boolean _ | .integer _ | .float _ | .text _ => List.nil_subset _
  | .list ds => objectsAmong_updateAll_subset ds
  | .mapping j es => by
    refine List.cons_subset.2 ⟨List.mem_append_left _ List.mem_cons_self, ?_⟩
    refine List.Subset.trans ?_ (List.subset_cons_self _ _)
    have hes := objectsIn_updateIn_subset es
    split
    · refine List.Subset.trans (objectsIn_set_subset _) (List.append_subset.2 ⟨hes, List.subset_append_right _ _⟩)
    · exact hes

theorem objectsAmong_updateAll_subset : ∀ ds : List (Node K Nat),
    objectsAmong (updateAll i (Entries.set key c) ds) ⊆ updatedObjects i key c (objectsAmong ds) ++ c.objects
  | [] => List.nil_subset _
  | d :: ds => by
    rw [updatedObjects, objectsAmong, List.map_append]
    exact append_subset_append_append (objects_update_subset d) (objectsAmong_updateAll_subset ds)

theorem objectsIn_updateIn_subset : ∀ es : Entries K Nat,
    objectsIn (updateIn i (Entries.set key c) es) ⊆ updatedObjects i key c (objectsIn es) ++ c.objects
  | [] => List.nil_subset _
  | e :: es => by
    rw [updatedObjects, objectsIn, List.map_append]
    exact append_subset_append_append (objectsOf_updateEntry_subset e) (objectsIn_updateIn_subset es)

theorem objectsOf_updateEntry_subset : ∀ e : K × Node K Nat,
    objectsOf (updateEntry i (Entries.set key c) e) ⊆ updatedObjects i key c (objectsOf e) ++ c.objects
  | (_, d) => objects_update_subset d
end

mutual
/-- To put what stands there already in a place changes nothing. -/
theorem value_update : ∀ {d : Node K Nat}, (∀ s, (i, s) ∈ d.objects → find? key (Entries.value s) = some c.value) →
    (d.update i (Entries.set key c)).value = d.value
  | .null, _ | .boolean _, _ | .integer _, _ | .float _, _ | .text _, _ => rfl
  | .list _, h => congrArg list (value_updateAll h)
  | .mapping j es, h => by
    have hes := value_updateIn fun s hs => h s (List.mem_cons_of_mem _ hs)
    refine congrArg (mapping ()) ?_
    change Entries.value (updated i key c j es) = Entries.value es
    rw [updated]
    split
    · rename_i hj
      subst hj
      rw [Entries.value_set, hes, Entries.set_of_find? (h es List.mem_cons_self)]
    · exact hes

theorem value_updateAll : ∀ {ds : List (Node K Nat)},
    (∀ s, (i, s) ∈ objectsAmong ds → find? key (Entries.value s) = some c.value) →
      relabelAll (fun _ => ()) (updateAll i (Entries.set key c) ds) = relabelAll (fun _ => ()) ds
  | [], _ => rfl
  | _ :: _, h => congrArg₂ List.cons (value_update fun s hs => h s (List.mem_append_left _ hs))
      (value_updateAll fun s hs => h s (List.mem_append_right _ hs))

theorem value_updateIn : ∀ {es : Entries K Nat},
    (∀ s, (i, s) ∈ objectsIn es → find? key (Entries.value s) = some c.value) →
      Entries.value (updateIn i (Entries.set key c) es) = Entries.value es
  | [], _ => rfl
  | _ :: _, h => congrArg₂ List.cons (value_updateEntry fun s hs => h s (List.mem_append_left _ hs))
      (value_updateIn fun s hs => h s (List.mem_append_right _ hs))

theorem value_updateEntry : ∀ {e : K × Node K Nat},
    (∀ s, (i, s) ∈ objectsOf e → find? key (Entries.value s) = some c.value) →
      relabelEntry (fun _ => ()) (updateEntry i (Entries.set key c) e) = relabelEntry (fun _ => ()) e
  | (k, _), h => congrArg (Prod.mk k) (value_update h)
end

end Node

/-! ## A merge keeps together what is shared -/

namespace Entries

theorem mem_value_of_mem : ∀ {es : Entries K Nat} {e : K × Node K Nat}, e ∈ es → (e.1, e.2.value) ∈ es.value
  | (_, _) :: _, e, h => by
    rcases List.mem_cons.1 h with rfl | h
    · exact List.mem_cons_self
    · exact List.mem_cons_of_mem _ (mem_value_of_mem h)

theorem mem_of_find? {V : Type} [DecidableEq K] {key : K} {d : V} {es : List (K × V)} (h : find? key es = some d) :
    (key, d) ∈ es := by
  obtain ⟨front, back, rfl, -⟩ := exists_of_find? h
  exact List.mem_append_right _ List.mem_cons_self

theorem mem_objectsIn_of_find? [DecidableEq K] {key : K} {j : Nat} {s u : Entries K Nat}
    (h : find? key s = some (.mapping j u)) : (j, u) ∈ Node.objectsIn s := by
  obtain ⟨front, back, rfl, -⟩ := exists_of_find? h
  rw [objectsIn_append]
  exact List.mem_append_right _ (List.mem_append_left _ List.mem_cons_self)

namespace Target

variable {key : K} {place : Option Nat} {t t' t'' : Target K} {c d : Node K Nat} {es : Entries K Nat}

/-- Whether mappings with one identity are the same, and no identity from `next` on is in use. -/
structure Sound (t : Target K) : Prop where
  coherent : Coherent (Node.objectsIn t.entries)
  lt : ∀ o ∈ Node.objectsIn t.entries, o.1 < t.next

/-- A target that holds what another one held, with new mappings besides. -/
structure Same (t t' : Target K) : Prop where
  value : t'.entries.value = t.entries.value
  le : t.next ≤ t'.next
  objects {i : Nat} {s : Entries K Nat} (h : (i, s) ∈ Node.objectsIn t'.entries) (hi : i < t.next) :
    ∃ s', (i, s') ∈ Node.objectsIn t.entries ∧ s.value = s'.value

theorem Same.refl (t : Target K) : Same t t := ⟨rfl, le_rfl, fun h _ => ⟨_, h, rfl⟩⟩

theorem Same.trans (h : Same t t') (h' : Same t' t'') : Same t t'' where
  value := h'.value.trans h.value
  le := h.le.trans h'.le
  objects hs hi := by
    obtain ⟨s', hs', heq'⟩ := h'.objects hs (hi.trans_le h.le)
    obtain ⟨s'', hs'', heq''⟩ := h.objects hs' hi
    exact ⟨s'', hs'', heq'.trans heq''⟩

/-- Whether something is true of what a place holds, if there is such a place. -/
def All (t : Target K) (p : Entries K Unit → Prop) : (place : Option Nat) → Prop
  | none => p t.entries.value
  | some i => i < t.next ∧ ∀ s, (i, s) ∈ Node.objectsIn t.entries → p s.value

theorem Same.all {p : Entries K Unit → Prop} (h : Same t t') (hp : t.All p place) : t'.All p place := by
  cases place with
  | none => exact (congrArg p h.value).mpr hp
  | some i =>
    refine ⟨hp.1.trans_le h.le, fun s hs => ?_⟩
    obtain ⟨s', hs', heq⟩ := h.objects hs hp.1
    exact heq ▸ hp.2 s' hs'

theorem objectsIn_entriesAt_subset : Node.objectsIn (t.entriesAt place) ⊆ Node.objectsIn t.entries := by
  cases place with
  | none => exact List.Subset.refl _
  | some i =>
    rw [entriesAt]
    cases hfind : Entries.find? i (Node.objectsIn t.entries) with
    | none => exact List.nil_subset _
    | some s => exact Node.objectsIn_subset_objectsIn (mem_of_find? hfind)

/-- What is true of a place is true of its entries, unless there is no such place. -/
theorem All.entriesAt {p : Entries K Unit → Prop} (h : t.All p place) :
    p (t.entriesAt place).value ∨ t.entriesAt place = [] ∧ ∀ q, t.All q place := by
  cases place with
  | none => exact .inl h
  | some i =>
    rw [Target.entriesAt]
    cases hfind : Entries.find? i (Node.objectsIn t.entries) with
    | none =>
      refine .inr ⟨rfl, fun q => ⟨h.1, fun s hs => ?_⟩⟩
      exact absurd (List.mem_map_of_mem hs) (find?_eq_none_iff.1 hfind)
    | some s => exact .inl (h.2 s (mem_of_find? hfind))

theorem lt_of_mem_copy {o : Nat × Entries K Nat} {n : Nat} (h : o ∈ (d.relabel (n + ·)).objects) :
    n ≤ o.1 ∧ o.1 < n + bound d.identities := by
  rw [Node.objects_relabel] at h
  obtain ⟨o, ho, rfl⟩ := List.mem_map.1 h
  have hlt : o.1 < bound d.identities := lt_bound (List.mem_map_of_mem ho)
  exact ⟨Nat.le_add_right _ _, Nat.add_lt_add_left hlt n⟩

variable [DecidableEq K]

/-- The entries of a mapping after a new entry was put in a place. -/
def changed (place : Option Nat) (key : K) (c : Node K Nat) (j : Nat) (s : Entries K Nat) : Entries K Nat :=
  match place with
  | none => s
  | some i => Node.updated i key c j s

theorem objectsIn_change_subset : Node.objectsIn (t.change (set key c) place) ⊆
    (Node.objectsIn t.entries).map (fun o => (o.1, changed place key c o.1 o.2)) ++ c.objects := by
  cases place with
  | none =>
    refine List.Subset.trans (Node.objectsIn_set_subset t.entries) ?_
    rw [show (fun o : Nat × Entries K Nat => (o.1, changed none key c o.1 o.2)) = id from rfl, List.map_id]
    exact List.Subset.refl _
  | some i => exact Node.objectsIn_updateIn_subset t.entries

theorem Sound.put (h : t.Sound) (hd : Coherent d.objects) : (t.put place key d).Sound := by
  have hold : ∀ o ∈ (Node.objectsIn t.entries).map fun o => (o.1, changed place key (d.relabel (t.next + ·)) o.1 o.2),
      o.1 < t.next := List.forall_mem_map.2 h.lt
  constructor
  · refine Coherent.mono ?_ objectsIn_change_subset
    refine (h.coherent.map _).append ?_ hold fun o ho => (lt_of_mem_copy ho).1
    rw [Node.objects_relabel]
    exact hd.copy t.next
  · intro o ho
    rcases List.mem_append.1 (objectsIn_change_subset ho) with ho | ho
    · exact (hold o ho).trans_le (Nat.le_add_right _ _)
    · exact (lt_of_mem_copy ho).2

mutual
theorem Sound.mergeAll : ∀ {es : Entries K Nat} {t : Target K} {place}, t.Sound → Coherent (Node.objectsIn es) →
    (mergeAll place t es).Sound
  | [], _, _, h, _ => h
  | (_, _) :: _, _, _, h, hes => by
    rw [Target.mergeAll, Target.mergeEntry]
    exact Sound.mergeAll (Sound.mergeUnder h (hes.mono (List.subset_append_left _ _)))
      (hes.mono (List.subset_append_right _ _))

theorem Sound.mergeUnder : ∀ {d : Node K Nat} {t : Target K} {place key old}, t.Sound → Coherent d.objects →
    (mergeUnder place t key old d).Sound
  | .null, _, _, _, _, h, hd => h.put hd
  | .boolean _, _, _, _, _, h, hd => h.put hd
  | .integer _, _, _, _, _, h, hd => h.put hd
  | .float _, _, _, _, _, h, hd => h.put hd
  | .text _, _, _, _, _, h, hd => h.put hd
  | .list _, _, _, _, _, h, hd => h.put hd
  | .mapping _ _, _, _, _, old, h, hd => by
    unfold Target.mergeUnder
    split
    · exact Sound.mergeAll h (hd.mono (List.subset_cons_self _ _))
    · exact h.put hd
end

/-! ## Twice the same -/

/-- To put what a place holds already in it changes nothing. -/
theorem same_put (h : t.All (fun doc => find? key doc = some d.value) place) : Same t (t.put place key d) := by
  have hc : (d.relabel (t.next + ·)).value = d.value := Node.value_relabel _ d
  cases place with
  | none =>
    refine ⟨?_, Nat.le_add_right _ _, fun {i s} hs hi => ?_⟩
    · change Entries.value (set key _ t.entries) = _
      rw [value_set, hc, set_of_find? h]
    · rcases List.mem_append.1 (Node.objectsIn_set_subset t.entries hs) with hs | hs
      · exact ⟨s, hs, rfl⟩
      · exact absurd (lt_of_mem_copy hs).1 (not_le.2 hi)
  | some i =>
    obtain ⟨hi, h⟩ := h
    have hput : ∀ es, Node.objectsIn es ⊆ Node.objectsIn t.entries →
        Entries.value (Node.updateIn i (set key (d.relabel (t.next + ·))) es) = es.value := fun es hes =>
      Node.value_updateIn fun s hs => hc ▸ h s (hes hs)
    refine ⟨hput _ (List.Subset.refl _), Nat.le_add_right _ _, fun {j s} hs hj => ?_⟩
    rcases List.mem_append.1 (Node.objectsIn_updateIn_subset t.entries hs) with hs | hs
    · obtain ⟨⟨j, s'⟩, hs', heq⟩ := List.mem_map.1 hs
      cases heq
      refine ⟨s', hs', ?_⟩
      have hvalue := hput s' (Node.objectsIn_subset_objectsIn hs')
      rw [Node.updated]
      split
      · rename_i hij
        subst hij
        rw [value_set, hvalue, hc, set_of_find? (h s' hs')]
      · exact hvalue
    · exact absurd (lt_of_mem_copy hs).1 (not_le.2 hj)

/-- Whether a mapping holds already what a document would make of what is under a key. -/
def Absorbs (key : K) (d : Node K Nat) (doc : Entries K Unit) : Prop :=
  ∃ x, find? key doc = some x ∧ Document.layOver (some x) d.value = x

/-- What is no mapping is under the key as it is. -/
theorem All.find? (h : t.All (Absorbs key d) place) (hd : Node.isMapping d.value = false) :
    t.All (fun doc => find? key doc = some d.value) place := by
  have hfind (doc : Entries K Unit) (h : Absorbs key d doc) : Entries.find? key doc = some d.value := by
    obtain ⟨x, hx, hlay⟩ := h
    rwa [← hlay, Document.layOver_of_not_mapping hd] at hx
  cases place with
  | none => exact hfind _ h
  | some i => exact ⟨h.1, fun s hs => hfind _ (h.2 s hs)⟩

mutual
/-- The induction is on what is merged. -/
theorem mergeAll_same : ∀ {es : Entries K Nat} {t : Target K} {place}, t.Sound → Coherent (Node.objectsIn es) →
    Document.areKeyed es.value = true → (∀ e ∈ es, t.All (Absorbs e.1 e.2) place) → Same t (mergeAll place t es)
  | [], t, _, _, _, _, _ => Same.refl t
  | (key, d) :: es, t, place, h, hes, hkeyed, hall => by
    obtain ⟨hhead, htail⟩ := List.forall_mem_cons.1 hall
    obtain ⟨-, hd, hrest⟩ := Document.areKeyed_cons.1 hkeyed
    have hsame := mergeUnder_same h (hes.mono (List.subset_append_left _ _)) hd hhead
    rw [mergeAll, mergeEntry]
    refine hsame.trans (mergeAll_same (Sound.mergeUnder h ?_) ?_ hrest fun e he => hsame.all (htail e he))
    · exact hes.mono (List.subset_append_left _ _)
    · exact hes.mono (List.subset_append_right _ _)

theorem mergeUnder_same : ∀ {d : Node K Nat} {t : Target K} {place key}, t.Sound → Coherent d.objects →
    Document.isKeyed d.value = true → t.All (Absorbs key d) place →
      Same t (mergeUnder place t key (Entries.find? key (t.entriesAt place)) d)
  | .null, _, _, _, _, _, _, hall => same_put (hall.find? rfl)
  | .boolean _, _, _, _, _, _, _, hall => same_put (hall.find? rfl)
  | .integer _, _, _, _, _, _, _, hall => same_put (hall.find? rfl)
  | .float _, _, _, _, _, _, _, hall => same_put (hall.find? rfl)
  | .text _, _, _, _, _, _, _, hall => same_put (hall.find? rfl)
  | .list _, _, _, _, _, _, _, hall => same_put (hall.find? rfl)
  | .mapping i es, t, place, key, h, hd, hkeyed, hall => by
    rcases hall.entriesAt with ⟨x, hx, hlay⟩ | ⟨hnil, hall⟩
    · rw [find?_value] at hx
      obtain ⟨old, hold, rfl⟩ := Option.map_eq_some_iff.1 hx
      rw [hold]
      cases old with
      | null | boolean | integer | float | text | list => cases hlay
      | mapping j u =>
        have hu : (j, u) ∈ Node.objectsIn t.entries := objectsIn_entriesAt_subset (mem_objectsIn_of_find? hold)
        have hmerge : Document.mergeAll (value u) (value es) = value u := (Node.mapping.inj hlay).2
        refine mergeAll_same h (hd.mono (List.subset_cons_self _ _)) hkeyed fun e he => ⟨h.lt _ hu, fun s hs => ?_⟩
        obtain rfl := h.coherent.eq hs hu
        exact Document.exists_of_mergeAll_eq hkeyed hmerge (mem_value_of_mem he)
    · rw [hnil]
      exact same_put (hall _)
end

end Target

/-! ## The law of leaves -/

/-- A mapping that stands in two places and is merged into in one of them is changed in both. -/
example :
    let base : Entries String Nat := [("a", .mapping 0 [("k", .integer 1)]), ("b", .mapping 0 [("k", .integer 1)])]
    (merge base [("a", .mapping 0 [("k", .integer 2)])]).value =
      [("a", .mapping () [("k", .integer 2)]), ("b", .mapping () [("k", .integer 2)])] := by
  rfl

end Entries

end Marshal
