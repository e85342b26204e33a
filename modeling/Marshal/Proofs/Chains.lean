import Mathlib
import Marshal.Config.Files
import Marshal.Proofs.Merge.Place
/-!
# Chains of files

`Files.resolve` puts names together: what `s/a` extends as `../b` is read under the name of `s/../b`, and the names of a
chain that turns in a circle can differ each time. Here a chain is seen by the places of its files instead, where each
file's `extends` entry is followed from the directory that the file is in. A chain of places either ends, at one that
nothing leads on from, or comes back to a place that it has been to, and more steps than there are files are enough to
tell (`exists_return`). It cannot do both (`Reaches.not_return`), as there is one way on from each place.

None of this depends on the number of steps that `Files.chain` may take. What it makes of the files that a chain goes
through is `chain_of_reaches`.
-/
namespace Marshal.Files

variable {K : Type}

/-- Whether no file is a directory as well, as in any file system. -/
def IsTree (fs : Files K) : Prop := ∀ f ∈ fs.files, isDirectory fs f.location = false

instance (fs : Files K) : Decidable (IsTree fs) :=
  inferInstanceAs (Decidable (∀ f ∈ fs.files, isDirectory fs f.location = false))

/-- Where the name leads that a chain starts with. -/
def start (fs : Files K) (name : String) : Option (List String) :=
  if Path.namesDirectory name then none else lead fs fs.current (Path.parse name)

/-- The entries that a file holds; an empty one has none. -/
def entries? : Node K Nat → Option (Entries K Nat)
  | .null => some []
  | .mapping _ es => some es
  | _ => none

/-- A file that a chain goes through. -/
structure Visit (K : Type) where
  location : List String
  entries : Entries K Nat

variable {fs : Files K} {name : String} {p q : Path} {location directory components : List String} {d : Node K Nat}

/-! ## Places -/

theorem locate_append {more : List String} : ∀ (components location : List String),
    locate fs location (components ++ more) = (locate fs location components).bind (locate fs · more)
  | [], _ => rfl
  | c :: cs, location => by
    rw [List.cons_append, locate, locate]
    split
    · rfl
    · split
      · exact locate_append cs _
      · exact locate_append cs _

theorem isDirectory_eq_true_iff : isDirectory fs location = true ↔
    location <+: fs.current ∨ ∃ f ∈ fs.files, location.length < f.location.length ∧ location <+: f.location := by
  simp only [isDirectory, Bool.or_eq_true, List.any_eq_true, Bool.and_eq_true, decide_eq_true_iff,
    List.isPrefixOf_iff_prefix]

theorem isDirectory_nil : isDirectory fs [] = true := isDirectory_eq_true_iff.2 (.inl List.nil_prefix)

theorem isDirectory_current : isDirectory fs fs.current = true := isDirectory_eq_true_iff.2 (.inl List.prefix_rfl)

theorem isDirectory_dropLast (h : isDirectory fs location = true) : isDirectory fs location.dropLast = true := by
  have hprefix := List.dropLast_prefix location
  rw [isDirectory_eq_true_iff] at h ⊢
  refine h.imp hprefix.trans fun ⟨f, hf, hlength, h⟩ => ?_
  exact ⟨f, hf, hprefix.length_le.trans_lt hlength, hprefix.trans h⟩

/-- What leads to a file leads to the file's directory without the last component: it is no `..`, since a directory is
what that leads to. -/
theorem locate_dropLast (h : locate fs directory components = some location) (hne : components ≠ [])
    (hfile : isDirectory fs location = false) : locate fs directory components.dropLast = some location.dropLast := by
  obtain ⟨front, c, rfl⟩ := (List.eq_nil_or_concat' components).resolve_left hne
  rw [locate_append] at h
  obtain ⟨outer, houter, hc⟩ := Option.bind_eq_some_iff.1 h
  rw [List.dropLast_concat, houter]
  rw [locate] at hc
  split at hc
  · cases hc
  · rename_i hdirectory
    rw [Bool.not_eq_true, Bool.not_eq_false'] at hdirectory
    split at hc
    · cases hc
      cases (isDirectory_dropLast hdirectory).symm.trans hfile
    · cases hc
      rw [List.dropLast_concat]

theorem exists_of_find? (hfind : find? fs location = some d) : ∃ f ∈ fs.files, f.location = location := by
  obtain ⟨f, hf, -⟩ := Option.map_eq_some_iff.1 hfind
  have hlocation := List.find?_some hf
  exact ⟨f, List.mem_of_find?_eq_some hf, beq_iff_eq.1 hlocation⟩

/-- A name seen from the directory of a file leads where it leads from there. -/
theorem lead_beside (h : IsTree fs) (hp : lead fs fs.current p = some location) (hfind : find? fs location = some d) :
    lead fs fs.current (p.beside q) = lead fs location.dropLast q := by
  have hfile : isDirectory fs location = false := by
    obtain ⟨f, hf, rfl⟩ := exists_of_find? hfind
    exact h f hf
  rw [lead] at hp
  have hne : p.components ≠ [] := fun hnil => by
    rw [hnil, locate] at hp
    cases hp
    split at hfile
    · cases isDirectory_nil.symm.trans hfile
    · cases isDirectory_current.symm.trans hfile
  rw [Path.beside]
  split
  · rename_i hq
    rw [lead, lead, if_pos hq, if_pos hq]
  · rename_i hq
    rw [lead, lead, if_neg hq, locate_append]
    exact congrArg (Option.bind · (locate fs · q.components)) (locate_dropLast hp hne hfile)

theorem read_eq {place : Option (List String)} : read fs name place =
    match place.bind (find? fs) with
    | none => .error (.notFile name)
    | some d =>
      match entries? d with
      | none => .error (.notMapping name)
      | some es => .ok es := by
  rw [read]
  cases place.bind (find? fs) with
  | none => rfl
  | some d => cases d <;> rfl

theorem exists_of_read {place : Option (List String)} {es : Entries K Nat} (hread : read fs name place = .ok es) :
    ∃ location d, place = some location ∧ find? fs location = some d ∧ entries? d = some es := by
  rw [read_eq] at hread
  split at hread
  · cases hread
  · rename_i d hd
    obtain ⟨location, rfl, hfind⟩ := Option.bind_eq_some_iff.1 hd
    split at hread
    · cases hread
    · cases hread
      exact ⟨location, d, rfl, hfind, ‹_›⟩

/-! ## From one file to the next -/

variable [DecidableEq K] [Key K]

/-- The file at a place, if it extends another one, and the place that it names from its own directory. -/
def link? (fs : Files K) (place : Option (List String)) : Option (Visit K × Option (List String)) := do
  let location ← place
  let d ← find? fs location
  let es ← entries? d
  let extended ← extended? es
  return (⟨location, es⟩, lead fs location.dropLast (Path.parse extended.asName))

/-- A chain leads from a place to another one, through files that it goes on from. -/
inductive Reaches (fs : Files K) : (place : Option (List String)) → List (Visit K) → (last : Option (List String)) →
    Prop
  | here {place} : Reaches fs place [] place
  | step {place next last visit front} (hlink : link? fs place = some (visit, next)) (h : Reaches fs next front last) :
    Reaches fs place (visit :: front) last

/-- The files of a chain, laid over what it ends with: the last one first, each without its `extends` entry. -/
def merged (front : List (Visit K)) (base : Entries K Nat) : Entries K Nat :=
  front.foldr (fun visit base => Entries.merge base (own visit.entries)) base

variable {base : Entries K Nat} {place next middle last : Option (List String)} {visit : Visit K}
  {front back whole : List (Visit K)}

theorem link?_eq_some_iff : link? fs place = some (visit, next) ↔
    place = some visit.location ∧ ∃ d extended, find? fs visit.location = some d ∧ entries? d = some visit.entries ∧
      extended? visit.entries = some extended ∧
      lead fs visit.location.dropLast (Path.parse extended.asName) = next := by
  constructor
  · intro h
    obtain ⟨location, rfl, h⟩ := Option.bind_eq_some_iff.1 h
    obtain ⟨d, hfind, h⟩ := Option.bind_eq_some_iff.1 h
    obtain ⟨es, hentries, h⟩ := Option.bind_eq_some_iff.1 h
    obtain ⟨extended, hextended, h⟩ := Option.bind_eq_some_iff.1 h
    cases h
    exact ⟨rfl, d, extended, hfind, hentries, hextended, rfl⟩
  · rintro ⟨rfl, d, extended, hfind, hentries, hextended, rfl⟩
    simp only [link?, bind, Option.bind, hfind, hentries, hextended]
    rfl

theorem link?_eq_none (h : ∀ (visit : Visit K) d, place = some visit.location → find? fs visit.location = some d →
    entries? d = some visit.entries → extended? visit.entries = none) : link? fs place = none := by
  refine Option.eq_none_iff_forall_ne_some.2 fun ⟨visit, next⟩ hlink => ?_
  obtain ⟨hplace, d, extended, hfind, hentries, hextended, -⟩ := link?_eq_some_iff.1 hlink
  cases (h visit d hplace hfind hentries).symm.trans hextended

theorem chain_of_link (h : IsTree fs) (hp : lead fs fs.current p = place) (hlink : link? fs place = some (visit, next))
    (n : Nat) (name : String) : ∃ q, lead fs fs.current q = next ∧ chain fs (n + 1) name p =
      (chain fs n q.render q).map (Entries.merge · (own visit.entries)) := by
  obtain ⟨rfl, d, extended, hfind, hentries, hextended, rfl⟩ := link?_eq_some_iff.1 hlink
  have hread : read fs name (some visit.location) = .ok visit.entries := by
    rw [read_eq, Option.bind_some, hfind]
    simp only [hentries]
  refine ⟨p.beside (Path.parse extended.asName), lead_beside h hp hfind, ?_⟩
  rw [chain, hp, hread]
  simp only [bind, Except.bind, hextended]
  cases chain fs n _ (p.beside (Path.parse extended.asName)) <;> rfl

theorem chain_of_end (hp : lead fs fs.current p = last) (hend : link? fs last = none) (n : Nat) :
    chain fs (n + 1) name p = (read fs name last).map own := by
  rw [chain, hp]
  cases hread : read fs name last with
  | error e => rfl
  | ok es =>
    obtain ⟨location, d, rfl, hfind, hentries⟩ := exists_of_read hread
    cases hextended : extended? es with
    | none =>
      simp only [bind, Except.bind, hextended]
      rfl
    | some extended =>
      have hlink : link? fs (some location) = some (⟨location, es⟩, _) :=
        link?_eq_some_iff.2 ⟨rfl, d, extended, hfind, hentries, hextended, rfl⟩
      cases hlink.symm.trans hend

/-- What is left of a chain once it has gone through some files. The induction is on these. -/
theorem chain_of_reaches (h : IsTree fs) (hr : Reaches fs place front last) (n : Nat) : ∀ (name : String) (p : Path),
    lead fs fs.current p = place → ∃ name' q, lead fs fs.current q = last ∧
      chain fs (front.length + n) name p = (chain fs n name' q).map (merged front) := by
  induction hr with
  | here =>
    intro name p hp
    refine ⟨name, p, hp, ?_⟩
    rw [List.length_nil, Nat.zero_add]
    cases chain fs n name p <;> rfl
  | @step place next last visit front hlink hr ih =>
    intro name p hp
    obtain ⟨q, hq, hchain⟩ := chain_of_link h hp hlink (front.length + n) name
    obtain ⟨name', q', hq', hrest⟩ := ih q.render q hq
    refine ⟨name', q', hq', ?_⟩
    rw [List.length_cons, Nat.add_right_comm, hchain, hrest]
    cases chain fs n name' q' <;> rfl

/-! ## Ends and returns -/

theorem Reaches.exists_middle : ∀ {front : List (Visit K)} {place}, Reaches fs place (front ++ back) last →
    ∃ middle, Reaches fs place front middle ∧ Reaches fs middle back last
  | [], place, h => ⟨place, .here, h⟩
  | _ :: _, _, .step hlink h => by
    obtain ⟨middle, hfront, hback⟩ := h.exists_middle
    exact ⟨middle, .step hlink hfront, hback⟩

theorem Reaches.exists_visit (h : Reaches fs place (front ++ visit :: back) last) :
    Reaches fs place front (some visit.location) ∧ Reaches fs (some visit.location) (visit :: back) last := by
  obtain ⟨middle, hfront, hback⟩ := h.exists_middle
  obtain rfl : middle = some visit.location := by
    cases hback with
    | step hlink _ => exact (link?_eq_some_iff.1 hlink).1
  exact ⟨hfront, hback⟩

/-- Whatever a chain that ends reaches is on its way. -/
theorem Reaches.exists_rest (h : Reaches fs place whole last) (hend : link? fs last = none)
    (hfront : Reaches fs place front middle) : ∃ back, whole = front ++ back ∧ Reaches fs middle back last := by
  induction hfront generalizing whole with
  | here => exact ⟨whole, rfl, h⟩
  | step hlink _ ih =>
    cases h with
    | here => cases hlink.symm.trans hend
    | step hlink' h =>
      cases hlink.symm.trans hlink'
      obtain ⟨back, rfl, hback⟩ := ih h
      exact ⟨back, rfl, hback⟩

/-- A chain that ends comes back to no place: the rest of it would be as long as all of it. -/
theorem Reaches.not_return (h : Reaches fs place whole last) (hend : link? fs last = none)
    (hr : Reaches fs place front (some location)) : location ∉ front.map Visit.location := fun hmem => by
  obtain ⟨visit, hvisit, rfl⟩ := List.mem_map.1 hmem
  obtain ⟨before, after, rfl⟩ := List.append_of_mem hvisit
  obtain ⟨hbefore, hround⟩ := hr.exists_visit
  obtain ⟨rest, -, hrest⟩ := h.exists_rest hend hbefore
  obtain ⟨once, honce, hround'⟩ := hrest.exists_rest hend hround
  obtain ⟨twice, htwice, -⟩ := hround'.exists_rest hend hrest
  have hlength := congrArg List.length htwice
  rw [honce] at hlength
  simp only [List.length_append, List.length_cons] at hlength
  omega

theorem Reaches.map_location_subset (h : Reaches fs place front last) :
    front.map Visit.location ⊆ fs.files.map File.location := by
  induction h with
  | here => exact List.nil_subset _
  | step hlink _ ih =>
    obtain ⟨-, d, -, hfind, -, -, -⟩ := link?_eq_some_iff.1 hlink
    obtain ⟨f, hf, heq⟩ := exists_of_find? hfind
    exact List.cons_subset.2 ⟨List.mem_map.2 ⟨f, hf, heq⟩, ih⟩

/-- A chain with more steps than there are files has come back to a place. -/
theorem Reaches.exists_return (h : Reaches fs place front last) (hlength : fs.files.length < front.length) :
    ∃ before location, Reaches fs place before (some location) ∧ location ∈ before.map Visit.location := by
  have htwice : ¬ (front.map Visit.location).Nodup := fun hnodup => by
    have hle := (hnodup.subperm h.map_location_subset).length_le
    rw [List.length_map, List.length_map] at hle
    omega
  obtain ⟨location, hdup⟩ := List.exists_duplicate_iff_not_nodup.2 htwice
  rw [List.duplicate_iff_sublist, List.cons_sublist_iff] at hdup
  obtain ⟨_, _, hsplit, hbefore, hafter⟩ := hdup
  obtain ⟨before, rest, rfl, rfl, rfl⟩ := List.map_eq_append_iff.1 hsplit
  obtain ⟨visit, hvisit, rfl⟩ := List.mem_map.1 (List.singleton_sublist.1 hafter)
  obtain ⟨between, after, rfl⟩ := List.append_of_mem hvisit
  rw [← List.append_assoc] at h
  refine ⟨before ++ between, visit.location, h.exists_visit.1, ?_⟩
  rw [List.map_append]
  exact List.mem_append_left _ hbefore

/-- As far as one looks, a chain ends or goes on. -/
theorem exists_reaches (fs : Files K) : ∀ (n : Nat) (place : Option (List String)),
    ∃ front last, Reaches fs place front last ∧ (link? fs last = none ∨ front.length = n)
  | 0, place => ⟨[], place, .here, .inr rfl⟩
  | n + 1, place => by
    cases hlink : link? fs place with
    | none => exact ⟨[], place, .here, .inl hlink⟩
    | some pair =>
      obtain ⟨front, last, hr, hor⟩ := exists_reaches fs n pair.2
      exact ⟨pair.1 :: front, last, .step hlink hr, hor.imp_right fun h => congrArg (· + 1) h⟩

/-! ## What a chain resolves to -/

theorem find?_merged {key : K} (hfront : ∀ es : Entries K Nat, Entries.find? key (own es) = none)
    (hbase : Entries.find? key base = none) : ∀ front : List (Visit K), Entries.find? key (merged front base) = none
  | [] => hbase
  | _ :: front => Entries.find?_merge_eq_none (find?_merged hfront hbase front) (hfront _)

/-- A name that can only be that of a directory leads nowhere, and the chain is at its end. -/
theorem resolve_of_start (fs : Files K) (name : String) :
    (∃ p, lead fs fs.current p = start fs name ∧ resolve fs name = chain fs (fs.files.length + 1) name p) ∨
      start fs name = none ∧ resolve fs name = .error (.notFile name) := by
  unfold start resolve
  split
  · exact .inr ⟨rfl, rfl⟩
  · exact .inl ⟨Path.parse name, rfl, rfl⟩

theorem Reaches.of_none (h : Reaches fs none front last) : front = [] ∧ last = none := by
  cases h with
  | here => exact ⟨rfl, rfl⟩
  | step hlink _ => cases (link?_eq_some_iff.1 hlink).1

theorem resolve_of_end (h : IsTree fs) (hr : Reaches fs (start fs name) front last) (hend : link? fs last = none) :
    ∃ name', resolve fs name = (read fs name' last).map fun es => merged front (own es) := by
  rcases resolve_of_start fs name with ⟨p, hp, hresolve⟩ | ⟨hstart, hresolve⟩
  · have hlength : front.length ≤ fs.files.length := by
      by_contra hlong
      obtain ⟨before, location, hbefore, hmem⟩ := hr.exists_return (not_le.1 hlong)
      exact hr.not_return hend hbefore hmem
    obtain ⟨more, hmore⟩ := Nat.exists_eq_add_of_le hlength
    obtain ⟨name', q, hq, hchain⟩ := chain_of_reaches h hr (more + 1) name p hp
    refine ⟨name', ?_⟩
    rw [hresolve, hmore, Nat.add_assoc, hchain, chain_of_end hq hend]
    cases read fs name' last <;> rfl
  · rw [hstart] at hr
    obtain ⟨rfl, rfl⟩ := hr.of_none
    exact ⟨name, hresolve⟩

theorem resolve_of_missing (h : IsTree fs) (hr : Reaches fs (start fs name) front place)
    (hmissing : place.bind (find? fs) = none) : ∃ missing, resolve fs name = .error (.notFile missing) := by
  have hend : link? fs place = none := link?_eq_none fun visit d hplace hfind _ => by
    rw [hplace, Option.bind_some, hfind] at hmissing
    cases hmissing
  obtain ⟨name', hresolve⟩ := resolve_of_end h hr hend
  refine ⟨name', ?_⟩
  rw [hresolve, read_eq, hmissing]
  rfl

/-- A chain that ends with a file resolves if the file is a mapping or empty. -/
theorem resolve_of_file (h : IsTree fs) (hr : Reaches fs (start fs name) front (some location))
    (hfind : find? fs location = some d)
    (hextended : ∀ es : Entries K Nat, entries? d = some es → extended? es = none) :
    ∃ other, resolve fs name =
      match entries? d with
      | none => .error (.notMapping other)
      | some es => .ok (merged front (own es)) := by
  have hend : link? fs (some location) = none := link?_eq_none fun visit d' hplace hfind' hentries => by
    cases hplace
    cases hfind.symm.trans hfind'
    exact hextended visit.entries hentries
  obtain ⟨name', hresolve⟩ := resolve_of_end h hr hend
  refine ⟨name', ?_⟩
  rw [hresolve, read_eq, Option.bind_some, hfind]
  simp only
  cases entries? d <;> rfl

theorem resolve_of_return (h : IsTree fs) (hr : Reaches fs (start fs name) front (some location))
    (hmem : location ∈ front.map Visit.location) : resolve fs name = .error .endless := by
  rcases resolve_of_start fs name with ⟨p, hp, hresolve⟩ | ⟨hstart, -⟩
  · obtain ⟨long, last, hlong, hend | hlength⟩ := exists_reaches fs (fs.files.length + 1) (start fs name)
    · exact absurd hmem (hlong.not_return hend hr)
    · obtain ⟨name', q, -, hchain⟩ := chain_of_reaches h hlong 0 name p hp
      rw [hresolve, ← hlength]
      exact hchain
  · rw [hstart] at hr
    cases hr.of_none.2

/-- **A chain of files resolves to its files laid one over the other.** If a chain ends with a file that extends no
other one, the result is what that file has, with the files before it laid over it, the nearest last, and no `extends`
entry is left. If it ends with a place that has no file, or with a file that is no mapping, the result is an error that
says so, and if it comes back to a file the result is an error too. Each chain does one of these. -/
theorem resolve_follows_chain {fs : Files K} (h : IsTree fs) (name : String) :
    (∀ front location d last, Reaches fs (start fs name) front (some location) → find? fs location = some d →
      entries? d = some last → extended? last = none →
        let entries := merged front (own last)
        resolve fs name = .ok entries ∧ Entries.find? (Key.ofName extendsName) entries = none) ∧
      (∀ front place, Reaches fs (start fs name) front place → place.bind (find? fs) = none →
        ∃ missing, resolve fs name = .error (.notFile missing)) ∧
      (∀ front location d, Reaches fs (start fs name) front (some location) → find? fs location = some d →
        entries? d = none → ∃ other, resolve fs name = .error (.notMapping other)) ∧
      (∀ front location, Reaches fs (start fs name) front (some location) → location ∈ front.map Visit.location →
        resolve fs name = .error .endless) ∧
      ∃ front place, Reaches fs (start fs name) front place ∧
        (link? fs place = none ∨ ∃ location ∈ front.map Visit.location, place = some location) := by
  refine ⟨fun front location d last hr hfind hentries hextended => ?_, fun front place => resolve_of_missing h,
    fun front location d hr hfind hentries => ?_, fun front location => resolve_of_return h, ?_⟩
  · obtain ⟨other, hresolve⟩ := resolve_of_file h hr hfind (by simpa [hentries] using hextended)
    rw [hentries] at hresolve
    exact ⟨hresolve, find?_merged Entries.find?_erase (Entries.find?_erase last) front⟩
  · obtain ⟨other, hresolve⟩ := resolve_of_file h hr hfind (by simp [hentries])
    rw [hentries] at hresolve
    exact ⟨other, hresolve⟩
  · obtain ⟨front, place, hr, hend | hlength⟩ := exists_reaches fs (fs.files.length + 1) (start fs name)
    · exact ⟨front, place, hr, .inl hend⟩
    · obtain ⟨before, location, hbefore, hmem⟩ := hr.exists_return (hlength ▸ Nat.lt_succ_self _)
      exact ⟨before, some location, hbefore, .inr ⟨location, hmem, rfl⟩⟩

/-- A file extends one from the directory above, which extends one with an absolute name, whose own `extends` entry
says nothing. Another one extends itself, one a file that there is none of, and one is a list. -/
theorem resolve_follows_chain_upwards :
    let b : Entries String Nat := [("x", .integer 1), ("extends", .text "../a")]
    let a : Entries String Nat := [("extends", .text "/e"), ("x", .null), ("y", .null)]
    let fs : Files String := ⟨["w"], [⟨["w", "s", "b"], .mapping 0 b⟩, ⟨["w", "a"], .mapping 0 a⟩,
      ⟨["e"], .mapping 0 [("extends", .boolean false), ("z", .null)]⟩,
      ⟨["w", "c"], .mapping 0 [("extends", .text "c")]⟩, ⟨["w", "d"], .mapping 0 [("extends", .text "e")]⟩,
      ⟨["w", "f"], .list []⟩]⟩
    IsTree fs ∧ Reaches fs (start fs "s/b") [⟨["w", "s", "b"], b⟩, ⟨["w", "a"], a⟩] (some ["e"]) ∧
      resolve fs "s/b" = .ok [("z", .null), ("x", .integer 1), ("y", .null)] ∧ resolve fs "c" = .error .endless ∧
      (∃ missing, resolve fs "d" = .error (.notFile missing)) ∧
      ∃ other, resolve fs "f" = .error (.notMapping other) := by
  intro b a fs
  have h : IsTree fs := by decide
  have hb : Reaches fs (start fs "s/b") [⟨["w", "s", "b"], b⟩, ⟨["w", "a"], a⟩] (some ["e"]) := by
    rw [show start fs "s/b" = some ["w", "s", "b"] by cbv]
    refine .step (link?_eq_some_iff.2 ⟨rfl, _, .text "../a", rfl, rfl, rfl, ?_⟩) (.step
      (link?_eq_some_iff.2 ⟨show some ["w", "a"] = _ from rfl, _, .text "/e", rfl, rfl, rfl, by cbv⟩) .here)
    cbv
  have hc : Reaches fs (start fs "c") [⟨["w", "c"], [("extends", .text "c")]⟩] (some ["w", "c"]) := by
    rw [show start fs "c" = some ["w", "c"] by cbv]
    exact .step (link?_eq_some_iff.2 ⟨rfl, _, .text "c", rfl, rfl, rfl, by cbv⟩) .here
  have hd : Reaches fs (start fs "d") [⟨["w", "d"], [("extends", .text "e")]⟩] (some ["w", "e"]) := by
    rw [show start fs "d" = some ["w", "d"] by cbv]
    exact .step (link?_eq_some_iff.2 ⟨rfl, _, .text "e", rfl, rfl, rfl, by cbv⟩) .here
  have hf : Reaches fs (start fs "f") [] (some ["w", "f"]) := by
    rw [show start fs "f" = some ["w", "f"] by cbv]
    exact .here
  obtain ⟨hlast, -⟩ := resolve_follows_chain h "s/b"
  obtain ⟨-, -, -, hreturn, -⟩ := resolve_follows_chain h "c"
  obtain ⟨-, hmissing, -⟩ := resolve_follows_chain h "d"
  obtain ⟨-, -, hother, -⟩ := resolve_follows_chain h "f"
  refine ⟨h, hb, ?_, hreturn _ _ hc (List.mem_singleton.2 rfl), hmissing _ _ hd rfl, hother _ _ _ hf rfl rfl⟩
  exact (hlast _ _ _ _ hb rfl rfl rfl).1

end Marshal.Files
