import Mathlib.Tactic
import Marshal.Proofs.Nesting
import Marshal.Signature.Parser
/-!
# A signature is read exactly where it was printed

`Accepts r s t` says that a type can stand where `s` is around it: it can be formed, a dict entry stands in an array
only, and no count goes past its limit. The reader gives a type exactly when it is accepted and its symbols come next
(`readType_of_accepts`, `accepts_of_readType`), so `parse_eq_ok_iff` and `parseAll_eq_ok_iff` say which texts are
signatures and of what.
-/
namespace Marshal

namespace Symbol

theorem code_injective {a b : Symbol} (h : a.code = b.code) : a = b := by
  have := ofCode?_code a
  rw [h, ofCode?_code b] at this
  exact (Option.some.inj this).symm

theorem code_lt (s : Symbol) : 0 < s.code ∧ s.code < 0x80 := by
  cases s with
  | basic b => cases b with
    | int k => cases k <;> decide
    | text k => cases k <;> decide
    | boolean | double => decide
  | _ => decide

end Symbol

namespace Ty

theorem signature_basic (b : Basic) : (Ty.basic b).signature = [(Symbol.basic b).code] := rfl

theorem signature_variant : Ty.variant.signature = [Symbol.variant.code] := rfl

theorem signature_array (t : Ty) : (Ty.array t).signature = Symbol.array.code :: t.signature := rfl

theorem signature_maybe (t : Ty) : (Ty.maybe t).signature = Symbol.maybe.code :: t.signature := rfl

theorem signature_struct (ts : List Ty) :
    (Ty.struct ts).signature = Symbol.openStruct.code :: (signatureOf ts ++ [Symbol.closeStruct.code]) := by
  simp [signature, signatureOf, symbols]

theorem signature_entry (k : Basic) (t : Ty) :
    (Ty.entry k t).signature =
      Symbol.openEntry.code :: (Symbol.basic k).code :: (t.signature ++ [Symbol.closeEntry.code]) := by
  simp [signature, symbols]

theorem ofString_signatureString (t : Ty) : Text.ofString t.signatureString = t.signature := by
  rw [Text.ofString, signatureString, String.toList_ofList, List.map_map]
  rfl

theorem signatureOf_nil : signatureOf [] = [] := rfl

theorem signatureOf_cons (t : Ty) (ts : List Ty) : signatureOf (t :: ts) = t.signature ++ signatureOf ts := by
  simp [signature, signatureOf, symbolsOf]

/-- Every type starts with a symbol that closes nothing. -/
theorem exists_signature_eq_cons (t : Ty) : ∃ s : Symbol, ∃ text, t.signature = s.code :: text ∧
    s ≠ .closeStruct ∧ s ≠ .closeEntry := by
  cases t with
  | basic b => exact ⟨_, _, signature_basic b, nofun, nofun⟩
  | array t => exact ⟨_, _, signature_array t, nofun, nofun⟩
  | struct ts => exact ⟨_, _, signature_struct ts, nofun, nofun⟩
  | entry k t => exact ⟨_, _, signature_entry k t, nofun, nofun⟩
  | variant => exact ⟨_, _, signature_variant, nofun, nofun⟩
  | maybe t => exact ⟨_, _, signature_maybe t, nofun, nofun⟩

theorem length_signature_pos (t : Ty) : 0 < t.signature.length := by
  obtain ⟨s, text, h, -⟩ := exists_signature_eq_cons t
  rw [h]
  exact Nat.succ_pos _

/-- A signature is ASCII and holds no zero. -/
theorem mem_signature {t : Ty} {c : CodePoint} (h : c ∈ t.signature) : 0 < c ∧ c < 0x80 := by
  obtain ⟨s, -, rfl⟩ := List.mem_map.1 h
  exact s.code_lt

theorem mem_signatureOf {ts : List Ty} {c : CodePoint} (h : c ∈ signatureOf ts) : 0 < c ∧ c < 0x80 := by
  obtain ⟨s, -, rfl⟩ := List.mem_map.1 h
  exact s.code_lt

end Ty

namespace Signature

/-- Whether a type can stand where it is read. -/
structure Accepts (r : Reading) (s : Surroundings) (t : Ty) : Prop where
  isFormed : t.isFormed = true
  entry : t.isEntry = true → s.inArray = true
  nesting : t.nesting = 0 ∨ ((s.depth + t.nesting : Nat) : Int) ≤ r.maxDepth
  arrays : t.arrayDepth = 0 ∨ s.arrays + t.arrayDepth ≤ Limits.arrayDepth
  structs : t.structDepth = 0 ∨ s.structs + t.structDepth ≤ Limits.structDepth
  maybes : r.format = some .dbus → t.mentionsMaybe = false

/-- What stands around the element of an array, the inside of a maybe, and the members of a struct or entry. -/
def Surroundings.inElement (s : Surroundings) : Surroundings := ⟨s.depth + 1, s.arrays + 1, s.structs, true⟩
def Surroundings.inMaybe (s : Surroundings) : Surroundings := ⟨s.depth + 1, s.arrays, s.structs, false⟩
def Surroundings.inStruct (s : Surroundings) : Surroundings := ⟨s.depth + 1, s.arrays, s.structs + 1, false⟩

/-- That the next container is not one too deep. -/
def Opens (r : Reading) (s : Surroundings) : Prop := (s.depth : Int) < r.maxDepth

variable {r : Reading} {s : Surroundings}

theorem accepts_basic (b : Basic) : Accepts r s (.basic b) := ⟨rfl, nofun, .inl rfl, .inl rfl, .inl rfl, fun _ => rfl⟩

theorem accepts_variant : Accepts r s .variant := ⟨rfl, nofun, .inl rfl, .inl rfl, .inl rfl, fun _ => rfl⟩

theorem accepts_array_iff {t : Ty} :
    Accepts r s (.array t) ↔ Opens r s ∧ s.arrays < Limits.arrayDepth ∧ Accepts r s.inElement t := by
  constructor
  · rintro ⟨h1, -, h3, h4, h5, h6⟩
    simp only [Ty.isFormed, Bool.and_eq_true, decide_eq_true_eq] at h1
    rw [Ty.nesting] at h3
    rw [Ty.arrayDepth] at h4
    refine ⟨by rw [Opens]; omega, by omega, h1.1, fun _ => rfl, ?_, ?_, h5, h6⟩ <;>
      simp only [Surroundings.inElement] <;> omega
  · rintro ⟨h1, h2, h3, -, h4, h5, h6, h7⟩
    simp only [Opens, Surroundings.inElement] at *
    refine ⟨?_, nofun, ?_, ?_, h6, h7⟩
    · simp only [Ty.isFormed, h3, Bool.true_and, decide_eq_true_eq]
      omega
    · rw [Ty.nesting]; omega
    · rw [Ty.arrayDepth]; omega

theorem Accepts.isEntry_eq_false {t : Ty} (h : Accepts r s t) (hs : s.inArray = false) : t.isEntry = false := by
  cases he : t.isEntry with
  | false => rfl
  | true => rw [h.entry he] at hs; cases hs

theorem accepts_maybe_iff {t : Ty} :
    Accepts r s (.maybe t) ↔ Opens r s ∧ r.format ≠ some .dbus ∧ Accepts r s.inMaybe t := by
  constructor
  · rintro ⟨h1, -, h3, h4, h5, h6⟩
    simp only [Ty.isFormed, Bool.and_eq_true, Bool.not_eq_true'] at h1
    rw [Ty.nesting] at h3
    have hf : r.format ≠ some .dbus := fun h => nomatch h6 h
    have he : t.isEntry = true → s.inMaybe.inArray = true := fun h => by rw [h1.2] at h; cases h
    refine ⟨by rw [Opens]; omega, hf, h1.1, he, ?_, h4, h5, fun h => absurd h hf⟩
    simp only [Surroundings.inMaybe]
    omega
  · rintro ⟨h1, h2, h⟩
    have he := h.isEntry_eq_false rfl
    obtain ⟨h3, -, h5, h6, h7, -⟩ := h
    simp only [Opens, Surroundings.inMaybe] at h1 h5
    refine ⟨?_, nofun, ?_, h6, h7, fun h => absurd h h2⟩
    · rw [Ty.isFormed, h3, he]
      rfl
    · rw [Ty.nesting]
      omega

theorem accepts_struct_iff {ts : List Ty} :
    Accepts r s (.struct ts) ↔
      Opens r s ∧ s.structs < Limits.structDepth ∧ ts ≠ [] ∧ ∀ t ∈ ts, Accepts r s.inStruct t := by
  constructor
  · rintro ⟨h1, -, h3, h4, h5, h6⟩
    simp only [Ty.isFormed, Bool.and_eq_true, decide_eq_true_eq, Bool.not_eq_true', List.isEmpty_eq_false_iff,
      Ty.areMembers_iff] at h1
    simp only [Ty.nesting, Ty.arrayDepth, Ty.structDepth] at h3 h4 h5
    refine ⟨by rw [Opens]; omega, by omega, h1.1.1, fun t ht => ?_⟩
    have hn := Ty.nestings_le_iff.1 le_rfl t ht
    have ha := Ty.arrayDepths_le_iff.1 le_rfl t ht
    have hs := Ty.structDepths_le_iff.1 le_rfl t ht
    obtain ⟨hf, he⟩ := h1.1.2 t ht
    have he' : t.isEntry = true → s.inStruct.inArray = true := fun h => by rw [he] at h; cases h
    have hm : r.format = some .dbus → t.mentionsMaybe = false := fun h => Ty.mentionMaybe_eq_false_iff.1 (h6 h) t ht
    refine ⟨hf, he', ?_, ?_, ?_, hm⟩ <;> simp only [Surroundings.inStruct] <;> omega
  · rintro ⟨h1, h2, h3, h4⟩
    have he : ∀ t ∈ ts, t.isEntry = false := fun t ht => (h4 t ht).isEntry_eq_false rfl
    simp only [Opens, Surroundings.inStruct] at h1 h4
    have hn : Ty.nestings ts ≤ r.maxDepth.toNat - (s.depth + 1) :=
      Ty.nestings_le_iff.2 fun t ht => by have := (h4 t ht).nesting; simp only at this; omega
    have ha : Ty.arrayDepths ts ≤ Limits.arrayDepth - s.arrays :=
      Ty.arrayDepths_le_iff.2 fun t ht => by have := (h4 t ht).arrays; simp only at this; omega
    have hs : Ty.structDepths ts ≤ Limits.structDepth - (s.structs + 1) :=
      Ty.structDepths_le_iff.2 fun t ht => by have := (h4 t ht).structs; simp only at this; omega
    have hentry : (Ty.struct ts).isEntry ≠ true := Bool.false_ne_true
    have hm : r.format = some .dbus → Ty.mentionMaybe ts = false := fun h =>
      Ty.mentionMaybe_eq_false_iff.2 fun t ht => (h4 t ht).maybes h
    refine ⟨?_, fun h => absurd h hentry, ?_, ?_, ?_, hm⟩
    · simp only [Ty.isFormed, Bool.and_eq_true, decide_eq_true_eq, Bool.not_eq_true', List.isEmpty_eq_false_iff,
        Ty.areMembers_iff]
      exact ⟨⟨h3, fun t ht => ⟨(h4 t ht).isFormed, he t ht⟩⟩, by omega⟩
    · rw [Ty.nesting]; omega
    · rw [Ty.arrayDepth]; omega
    · rw [Ty.structDepth]; omega

theorem accepts_entry_iff {k : Basic} {t : Ty} :
    Accepts r s (.entry k t) ↔
      Opens r s ∧ s.inArray = true ∧ s.structs < Limits.structDepth ∧ Accepts r s.inStruct t := by
  constructor
  · rintro ⟨h1, h2, h3, h4, h5, h6⟩
    simp only [Ty.isFormed, Bool.and_eq_true, decide_eq_true_eq, Bool.not_eq_true'] at h1
    simp only [Ty.nesting, Ty.arrayDepth, Ty.structDepth] at h3 h4 h5
    have he : t.isEntry = true → s.inStruct.inArray = true := fun h => by rw [h1.1.2] at h; cases h
    refine ⟨by rw [Opens]; omega, h2 rfl, by omega, h1.1.1, he, ?_, h4, ?_, h6⟩ <;>
      simp only [Surroundings.inStruct] <;> omega
  · rintro ⟨h1, h2, h3, h⟩
    have he := h.isEntry_eq_false rfl
    obtain ⟨h5, -, h6, h7, h8, h9⟩ := h
    simp only [Opens, Surroundings.inStruct] at h1 h6 h8
    refine ⟨?_, fun _ => h2, ?_, h7, ?_, h9⟩
    · simp only [Ty.isFormed, h5, he, Bool.not_false, Bool.true_and, decide_eq_true_eq]
      omega
    · rw [Ty.nesting]; omega
    · rw [Ty.structDepth]; omega

/-! ## One symbol at a time -/

section
variable {n p : Nat} {rest : Text} {t : Ty} {c : Cursor}

theorem readType_basic {b : Basic} :
    readType r (n + 1) s ⟨p, (Symbol.basic b).code :: rest⟩ = .ok (t, c) ↔ t = .basic b ∧ c = ⟨p + 1, rest⟩ := by
  simp only [readType, peek, bind, Except.bind, Symbol.ofCode?_code, skip, List.tail_cons, pure, Except.pure,
    Except.ok.injEq, Prod.mk.injEq, eq_comm]

theorem readType_variant :
    readType r (n + 1) s ⟨p, Symbol.variant.code :: rest⟩ = .ok (t, c) ↔ t = .variant ∧ c = ⟨p + 1, rest⟩ := by
  simp only [readType, peek, bind, Except.bind, Symbol.ofCode?_code, skip, List.tail_cons, pure, Except.pure,
    Except.ok.injEq, Prod.mk.injEq, eq_comm]

theorem readType_array :
    readType r (n + 1) s ⟨p, Symbol.array.code :: rest⟩ = .ok (t, c) ↔
      Opens r s ∧ s.arrays < Limits.arrayDepth ∧
        ∃ u, readType r n s.inElement ⟨p + 1, rest⟩ = .ok (u, c) ∧ t = .array u := by
  simp only [readType, peek, bind, Except.bind, Symbol.ofCode?_code, skip, List.tail_cons, pure, Except.pure]
  by_cases h1 : r.maxDepth ≤ s.depth
  · simp [h1, Opens]
  by_cases h2 : Limits.arrayDepth ≤ s.arrays
  · simp [h1, h2, Opens]
  have h1' := lt_of_not_ge h1
  have h2' := lt_of_not_ge h2
  simp only [h1, h2, h1', h2', if_false, Opens, Surroundings.inElement, true_and]
  cases readType r n ⟨s.depth + 1, s.arrays + 1, s.structs, true⟩ ⟨p + 1, rest⟩ with
  | error e => simp
  | ok x => simp [Prod.ext_iff, and_comm, eq_comm]

theorem readType_maybe :
    readType r (n + 1) s ⟨p, Symbol.maybe.code :: rest⟩ = .ok (t, c) ↔
      Opens r s ∧ r.format ≠ some .dbus ∧
        ∃ u, readType r n s.inMaybe ⟨p + 1, rest⟩ = .ok (u, c) ∧ t = .maybe u := by
  simp only [readType, peek, bind, Except.bind, Symbol.ofCode?_code, skip, List.tail_cons, pure, Except.pure]
  by_cases h1 : r.maxDepth ≤ s.depth
  · simp [h1, Opens]
  by_cases h2 : r.format = some .dbus
  · simp [h1, h2, Opens]
  have h1' := lt_of_not_ge h1
  simp only [h1, h2, h1', if_false, Opens, Surroundings.inMaybe, true_and, ne_eq, not_false_eq_true]
  cases readType r n ⟨s.depth + 1, s.arrays, s.structs, false⟩ ⟨p + 1, rest⟩ with
  | error e => simp
  | ok x => simp [Prod.ext_iff, and_comm, eq_comm]

theorem readType_struct :
    readType r (n + 1) s ⟨p, Symbol.openStruct.code :: rest⟩ = .ok (t, c) ↔
      Opens r s ∧ s.structs < Limits.structDepth ∧
        ∃ ts d, readFields (readType r n s.inStruct) n ⟨p + 1, rest⟩ = .ok (ts, d) ∧ ts ≠ [] ∧ t = .struct ts ∧
          c = skip d := by
  simp only [readType, peek, bind, Except.bind, Symbol.ofCode?_code, skip, List.tail_cons, pure, Except.pure]
  by_cases h1 : r.maxDepth ≤ s.depth
  · simp [h1, Opens]
  by_cases h2 : Limits.structDepth ≤ s.structs
  · simp [h1, h2, Opens]
  have h1' := lt_of_not_ge h1
  have h2' := lt_of_not_ge h2
  simp only [h1, h2, h1', h2', if_false, Opens, Surroundings.inStruct, true_and]
  cases readFields (readType r n ⟨s.depth + 1, s.arrays, s.structs + 1, false⟩) n ⟨p + 1, rest⟩ with
  | error e => simp
  | ok x =>
    obtain ⟨ts, d⟩ := x
    cases ts with
    | nil => simp
    | cons u ts => simp [eq_comm]

theorem readType_entry :
    readType r (n + 1) s ⟨p, Symbol.openEntry.code :: rest⟩ = .ok (t, c) ↔
      Opens r s ∧ s.inArray = true ∧ s.structs < Limits.structDepth ∧
        ∃ k d u e, readType r n s.inStruct ⟨p + 1, rest⟩ = .ok (.basic k, d) ∧
          readType r n s.inStruct d = .ok (u, e) ∧ e.rest.head? = some Symbol.closeEntry.code ∧ t = .entry k u ∧
            c = skip e := by
  simp only [readType, peek, bind, Except.bind, Symbol.ofCode?_code, skip, List.tail_cons, pure, Except.pure]
  by_cases h1 : r.maxDepth ≤ s.depth
  · simp [h1, Opens]
  by_cases h2 : s.inArray = true
  swap
  · simp [h1, h2, Opens]
  by_cases h3 : Limits.structDepth ≤ s.structs
  · simp [h1, h2, h3, Opens]
  have h1' := lt_of_not_ge h1
  have h3' := lt_of_not_ge h3
  simp only [h1, h2, h3, h1', h3', if_false, Opens, Surroundings.inStruct, true_and, Bool.not_true, Bool.false_eq_true]
  cases readType r n ⟨s.depth + 1, s.arrays, s.structs + 1, false⟩ ⟨p + 1, rest⟩ with
  | error e => simp
  | ok x =>
    obtain ⟨key, d⟩ := x
    cases key with
    | basic k =>
      cases hd : readType r n ⟨s.depth + 1, s.arrays, s.structs + 1, false⟩ d with
      | error e => simp +contextual [hd]
      | ok y =>
        obtain ⟨u, q, text⟩ := y
        simp only [hd, Except.ok.injEq, Prod.mk.injEq, Ty.basic.injEq]
        constructor
        · intro h
          cases text with
          | nil => cases h
          | cons code text =>
            by_cases hc : code = Symbol.closeEntry.code
            · simp only [hc, ne_eq, not_true_eq_false, if_false, Except.ok.injEq, Prod.mk.injEq] at h
              exact ⟨k, d, u, _, ⟨rfl, rfl⟩, hd, by simp [hc], h.1.symm, h.2.symm⟩
            · simp [hc] at h
        · rintro ⟨k', d', u', e, ⟨rfl, rfl⟩, hu, he, rfl, rfl⟩
          rw [hd] at hu
          cases hu
          obtain ⟨text, rfl⟩ : ∃ rest, text = Symbol.closeEntry.code :: rest := by
            cases text with
            | nil => cases he
            | cons code text => exact ⟨text, by rw [Option.some.inj he]⟩
          simp
    | _ => simp

/-- No type starts where there is no symbol, or one that closes a container. -/
theorem readType_ne_ok {code : CodePoint} (h : ∀ s ∈ Symbol.ofCode? code, s = .closeStruct ∨ s = .closeEntry) :
    readType r (n + 1) s ⟨p, code :: rest⟩ ≠ .ok (t, c) := by
  simp only [readType, peek, bind, Except.bind]
  cases hs : Symbol.ofCode? code with
  | none => simp
  | some x => rcases h x hs with rfl | rfl <;> simp

theorem readType_nil : readType r n s ⟨p, []⟩ ≠ .ok (t, c) := by
  cases n <;> simp [readType, peek, bind, Except.bind]

theorem readFields_close {read : Reader Ty} :
    readFields read n ⟨p, Symbol.closeStruct.code :: rest⟩ = .ok ([], ⟨p, Symbol.closeStruct.code :: rest⟩) := by
  unfold readFields
  simp [peek, bind, Except.bind, pure, Except.pure]

theorem readFields_succ {read : Reader Ty} {code : CodePoint} (h : code ≠ Symbol.closeStruct.code) {ts : List Ty} :
    readFields read (n + 1) ⟨p, code :: rest⟩ = .ok (ts, c) ↔
      ∃ u d us, read ⟨p, code :: rest⟩ = .ok (u, d) ∧ readFields read n d = .ok (us, c) ∧ ts = u :: us := by
  rw [readFields]
  simp only [peek, bind, Except.bind, pure, Except.pure, h, if_false]
  cases read ⟨p, code :: rest⟩ with
  | error e => simp
  | ok x =>
    obtain ⟨u, d⟩ := x
    cases hd : readFields read n d with
    | error e => simp +contextual [hd]
    | ok y =>
      obtain ⟨us, e⟩ := y
      simp only [hd, Except.ok.injEq, Prod.mk.injEq]
      grind

end

/-! ## Whole types -/

mutual
/-- **A type is read where it is accepted and its signature comes next.** -/
theorem readType_of_accepts (r : Reading) : ∀ (t : Ty) (n : Nat) (s : Surroundings) (p : Nat) (rest : Text),
    Accepts r s t → t.signature.length ≤ n →
      readType r n s ⟨p, t.signature ++ rest⟩ = .ok (t, ⟨p + t.signature.length, rest⟩)
  | t, 0, _, _, _, _, hn => absurd hn (Nat.not_le.2 t.length_signature_pos)
  | .basic _, _ + 1, _, _, _, _, _ => readType_basic.2 ⟨rfl, rfl⟩
  | .variant, _ + 1, _, _, _, _, _ => readType_variant.2 ⟨rfl, rfl⟩
  | .array t, n + 1, s, p, rest, h, hn => by
    obtain ⟨h1, h2, h3⟩ := accepts_array_iff.1 h
    rw [Ty.signature_array, List.length_cons] at *
    have ih := readType_of_accepts r t n s.inElement (p + 1) rest h3 (by omega)
    rw [List.cons_append]
    refine readType_array.2 ⟨h1, h2, t, ?_, rfl⟩
    rw [ih, Nat.add_assoc, Nat.add_comm 1]
  | .maybe t, n + 1, s, p, rest, h, hn => by
    obtain ⟨h1, h2, h3⟩ := accepts_maybe_iff.1 h
    rw [Ty.signature_maybe, List.length_cons] at *
    have ih := readType_of_accepts r t n s.inMaybe (p + 1) rest h3 (by omega)
    rw [List.cons_append]
    refine readType_maybe.2 ⟨h1, h2, t, ?_, rfl⟩
    rw [ih, Nat.add_assoc, Nat.add_comm 1]
  | .struct ts, n + 1, s, p, rest, h, hn => by
    obtain ⟨h1, h2, h3, h4⟩ := accepts_struct_iff.1 h
    rw [Ty.signature_struct, List.length_cons, List.length_append] at *
    have ih := readFields_of_accepts r ts n n s.inStruct (p + 1) rest h4 (by omega) (by omega)
    rw [List.cons_append, List.append_assoc]
    refine readType_struct.2 ⟨h1, h2, ts, _, ih, h3, rfl, ?_⟩
    simp only [skip, List.tail_cons, List.length_singleton]
    congr 1
    omega
  | .entry k t, n + 1, s, p, rest, h, hn => by
    obtain ⟨h1, h2, h3, h4⟩ := accepts_entry_iff.1 h
    rw [Ty.signature_entry, List.length_cons, List.length_cons, List.length_append] at *
    have ih := readType_of_accepts r t n s.inStruct (p + 1 + 1) (Symbol.closeEntry.code :: rest) h4 (by omega)
    obtain ⟨m, rfl⟩ : ∃ m, n = m + 1 := ⟨n - 1, by omega⟩
    rw [List.cons_append, List.cons_append, List.append_assoc]
    refine readType_entry.2 ⟨h1, h2, h3, k, _, t, _, readType_basic.2 ⟨rfl, rfl⟩, ih, rfl, rfl, ?_⟩
    simp only [skip, List.tail_cons, List.length_singleton]
    congr 1
    omega

theorem readFields_of_accepts (r : Reading) : ∀ (ts : List Ty) (n m : Nat) (s : Surroundings) (p : Nat) (rest : Text),
    (∀ t ∈ ts, Accepts r s t) → (Ty.signatureOf ts).length ≤ n → (Ty.signatureOf ts).length ≤ m →
      readFields (readType r n s) m ⟨p, Ty.signatureOf ts ++ Symbol.closeStruct.code :: rest⟩ =
        .ok (ts, ⟨p + (Ty.signatureOf ts).length, Symbol.closeStruct.code :: rest⟩)
  | [], _, _, _, _, _, _, _, _ => readFields_close
  | t :: ts, n, m, s, p, rest, h, hn, hm => by
    have hpos := t.length_signature_pos
    rw [Ty.signatureOf_cons, List.length_append] at *
    have ht := readType_of_accepts r t n s p (Ty.signatureOf ts ++ Symbol.closeStruct.code :: rest)
      (h t List.mem_cons_self) (by omega)
    obtain ⟨m, rfl⟩ : ∃ l, m = l + 1 := ⟨m - 1, by omega⟩
    have hts := readFields_of_accepts r ts n m s (p + t.signature.length) rest
      (fun u hu => h u (List.mem_cons_of_mem t hu)) (by omega) (by omega)
    obtain ⟨x, text, hx, hs, -⟩ := t.exists_signature_eq_cons
    rw [List.append_assoc]
    rw [hx, List.cons_append] at ht ⊢
    refine (readFields_succ fun hc => hs (Symbol.code_injective hc)).2 ⟨t, _, ts, ht, ?_, rfl⟩
    rw [← hx, hts, Nat.add_assoc]
end

/-- Whether every type that a reader gives has a property, and its signature is what was read. -/
def Prints (P : Ty → Prop) (read : Reader Ty) : Prop :=
  ∀ c t d, read c = .ok (t, d) → P t ∧ c.rest = t.signature ++ d.rest ∧ d.position = c.position + t.signature.length

theorem readFields_prints {P : Ty → Prop} {read : Reader Ty} (hread : Prints P read) :
    ∀ (n : Nat) (c d : Cursor) (ts : List Ty), readFields read n c = .ok (ts, d) →
      (∀ t ∈ ts, P t) ∧ c.rest = Ty.signatureOf ts ++ d.rest ∧ d.position = c.position + (Ty.signatureOf ts).length ∧
        d.rest.head? = some Symbol.closeStruct.code
  | n, ⟨p, []⟩, d, ts, h => by
    unfold readFields at h
    cases h
  | n, ⟨p, code :: rest⟩, d, ts, h => by
    by_cases hc : code = Symbol.closeStruct.code
    · subst hc
      rw [readFields_close] at h
      cases h
      exact ⟨nofun, rfl, rfl, rfl⟩
    cases n with
    | zero =>
      unfold readFields at h
      simp [peek, bind, Except.bind, hc] at h
    | succ n =>
      obtain ⟨u, e, us, hu, hus, rfl⟩ := (readFields_succ hc).1 h
      obtain ⟨h1, h2, h3⟩ := hread _ _ _ hu
      obtain ⟨h4, h5, h6, h7⟩ := readFields_prints hread n e d us hus
      refine ⟨List.forall_mem_cons.2 ⟨h1, h4⟩, ?_, ?_, h7⟩
      · rw [h2, h5, Ty.signatureOf_cons, List.append_assoc]
      · rw [h6, h3, Ty.signatureOf_cons, List.length_append, Nat.add_assoc]

theorem head?_eq_some_cons {α : Type} {l : List α} {a : α} (h : l.head? = some a) : l = a :: l.tail := by
  cases l with
  | nil => cases h
  | cons b l => rw [← Option.some.inj h]; rfl

/-- **A type that was read is accepted, and its signature is what was read.** -/
theorem readType_prints (r : Reading) : ∀ (n : Nat) (s : Surroundings), Prints (Accepts r s) (readType r n s)
  | 0, s, c, t, d, h => by cases h
  | n + 1, s, ⟨p, []⟩, t, d, h => absurd h readType_nil
  | n + 1, s, ⟨p, code :: rest⟩, t, d, h => by
    cases hx : Symbol.ofCode? code with
    | none => exact absurd h (readType_ne_ok (by simp [hx]))
    | some x =>
      obtain rfl := Symbol.code_of_ofCode? hx
      cases x with
      | basic b =>
        obtain ⟨rfl, rfl⟩ := readType_basic.1 h
        exact ⟨accepts_basic b, rfl, rfl⟩
      | variant =>
        obtain ⟨rfl, rfl⟩ := readType_variant.1 h
        exact ⟨accepts_variant, rfl, rfl⟩
      | array =>
        obtain ⟨h1, h2, u, hu, rfl⟩ := readType_array.1 h
        obtain ⟨h3, h4, h5⟩ := readType_prints r n _ _ _ _ hu
        simp only at h4 h5
        refine ⟨accepts_array_iff.2 ⟨h1, h2, h3⟩, ?_, ?_⟩
        · rw [Ty.signature_array, h4, List.cons_append]
        · simp only [Ty.signature_array, h5, List.length_cons]
          omega
      | maybe =>
        obtain ⟨h1, h2, u, hu, rfl⟩ := readType_maybe.1 h
        obtain ⟨h3, h4, h5⟩ := readType_prints r n _ _ _ _ hu
        simp only at h4 h5
        refine ⟨accepts_maybe_iff.2 ⟨h1, h2, h3⟩, ?_, ?_⟩
        · rw [Ty.signature_maybe, h4, List.cons_append]
        · simp only [Ty.signature_maybe, h5, List.length_cons]
          omega
      | openStruct =>
        obtain ⟨h1, h2, ts, e, hts, h3, rfl, rfl⟩ := readType_struct.1 h
        obtain ⟨h4, h5, h6, h7⟩ := readFields_prints (readType_prints r n s.inStruct) n _ _ _ hts
        simp only at h5 h6
        refine ⟨accepts_struct_iff.2 ⟨h1, h2, h3, h4⟩, ?_, ?_⟩
        · rw [Ty.signature_struct, h5, head?_eq_some_cons h7, List.cons_append, List.append_assoc]
          rfl
        · simp only [Ty.signature_struct, skip, h6, List.length_cons, List.length_append, List.length_nil]
          omega
      | openEntry =>
        obtain ⟨h1, h2, h3, k, e, u, f, hk, hu, hf, rfl, rfl⟩ := readType_entry.1 h
        obtain ⟨-, h4, h5⟩ := readType_prints r n _ _ _ _ hk
        obtain ⟨h6, h7, h8⟩ := readType_prints r n _ _ _ _ hu
        simp only [Ty.signature_basic] at h4 h5
        refine ⟨accepts_entry_iff.2 ⟨h1, h2, h3, h6⟩, ?_, ?_⟩
        · rw [Ty.signature_entry, h4, h7, head?_eq_some_cons hf]
          simp [skip]
        · rw [Ty.signature_entry, skip, h8, h5]
          simp
          omega
      | closeStruct => exact absurd h (readType_ne_ok (by simp [hx]))
      | closeEntry => exact absurd h (readType_ne_ok (by simp [hx]))

/-! ## Whole texts -/

/-- **A text is the signature of a type exactly when the type is accepted and prints as the text.** -/
theorem parse_eq_ok_iff {text : Text} {t : Ty} :
    parse r text = .ok t ↔ text = t.signature ∧ text.length ≤ Limits.signatureLength ∧ Accepts r {} t := by
  unfold parse
  constructor
  · intro h
    split at h
    · cases h
    rename_i hl
    split at h
    · cases h
    · rename_i u p hu
      cases h
      obtain ⟨h1, h2, -⟩ := readType_prints r _ _ _ _ _ hu
      exact ⟨by simpa using h2, by omega, h1⟩
    · cases h
  · rintro ⟨rfl, hl, h⟩
    have hr := readType_of_accepts r t t.signature.length {} 0 [] h le_rfl
    rw [List.append_nil] at hr
    rw [if_neg (by omega), hr]

theorem readTypes_succ {read : Reader Ty} {m p : Nat} {code : CodePoint} {rest : Text} {ts : List Ty} :
    readTypes read (m + 1) ⟨p, code :: rest⟩ = .ok ts ↔
      ∃ u d us, read ⟨p, code :: rest⟩ = .ok (u, d) ∧ readTypes read m d = .ok us ∧ ts = u :: us := by
  rw [readTypes]
  swap
  · simp
  simp only [bind, Except.bind, pure, Except.pure]
  cases read ⟨p, code :: rest⟩ with
  | error e => simp
  | ok x =>
    obtain ⟨u, d⟩ := x
    cases hd : readTypes read m d with
    | error e => simp +contextual [hd]
    | ok us =>
      simp only [hd, Except.ok.injEq, Prod.mk.injEq]
      grind

theorem readTypes_nil {read : Reader Ty} {m p : Nat} : readTypes read m ⟨p, []⟩ = .ok [] := by
  cases m <;> rfl

theorem readTypes_prints (n : Nat) : ∀ (m : Nat) (c : Cursor) (ts : List Ty),
    readTypes (readType r n s) m c = .ok ts → c.rest = Ty.signatureOf ts ∧ ∀ t ∈ ts, Accepts r s t
  | m, ⟨p, []⟩, ts, h => by
    rw [readTypes_nil] at h
    cases h
    exact ⟨rfl, nofun⟩
  | 0, ⟨p, code :: rest⟩, ts, h => by cases h
  | m + 1, ⟨p, code :: rest⟩, ts, h => by
    obtain ⟨u, d, us, hu, hus, rfl⟩ := readTypes_succ.1 h
    obtain ⟨h1, h2, -⟩ := readType_prints r n s _ _ _ hu
    obtain ⟨h3, h4⟩ := readTypes_prints n m d us hus
    exact ⟨by rw [h2, h3, Ty.signatureOf_cons], List.forall_mem_cons.2 ⟨h1, h4⟩⟩

theorem readTypes_of_accepts (n : Nat) : ∀ (ts : List Ty) (m p : Nat), (∀ t ∈ ts, Accepts r s t) →
    (Ty.signatureOf ts).length ≤ n → (Ty.signatureOf ts).length ≤ m →
      readTypes (readType r n s) m ⟨p, Ty.signatureOf ts⟩ = .ok ts
  | [], m, p, _, _, _ => readTypes_nil
  | t :: ts, m, p, h, hn, hm => by
    have hpos := t.length_signature_pos
    rw [Ty.signatureOf_cons, List.length_append] at *
    have ht := readType_of_accepts r t n s p (Ty.signatureOf ts) (h t List.mem_cons_self) (by omega)
    obtain ⟨m, rfl⟩ : ∃ l, m = l + 1 := ⟨m - 1, by omega⟩
    have hts := readTypes_of_accepts n ts m (p + t.signature.length)
      (fun u hu => h u (List.mem_cons_of_mem t hu)) (by omega) (by omega)
    obtain ⟨x, text, hx, -⟩ := t.exists_signature_eq_cons
    rw [hx, List.cons_append] at ht ⊢
    refine readTypes_succ.2 ⟨t, _, ts, ht, ?_, rfl⟩
    rw [← hx, hts]

/-- **A text is a sequence of signatures exactly when the types are accepted and print as the text.** -/
theorem parseAll_eq_ok_iff {text : Text} {ts : List Ty} :
    parseAll r text = .ok ts ↔
      text = Ty.signatureOf ts ∧ text.length ≤ Limits.signatureLength ∧ ∀ t ∈ ts, Accepts r {} t := by
  unfold parseAll
  constructor
  · intro h
    split at h
    · cases h
    rename_i hl
    cases hr : readTypes (readType r text.length {}) text.length ⟨0, text⟩ with
    | error e => rw [hr] at h; cases h
    | ok us =>
      rw [hr] at h
      cases h
      obtain ⟨h1, h2⟩ := readTypes_prints _ _ _ _ hr
      exact ⟨h1, by omega, h2⟩
  · rintro ⟨rfl, hl, h⟩
    rw [if_neg (by omega), readTypes_of_accepts _ ts _ 0 h le_rfl le_rfl]
    rfl

/-- What it takes for a type to stand alone. -/
theorem accepts_of_isFormed {t : Ty} (h : t.isFormed = true) (he : t.isEntry = false)
    (hn : (t.nesting : Int) ≤ r.maxDepth) (hm : r.format = some .dbus → t.mentionsMaybe = false) : Accepts r {} t := by
  obtain ⟨ha, hs⟩ := t.depths_le_of_isFormed h
  exact ⟨h, fun h => by (rw [he] at h; cases h), .inr (by simpa using hn), .inr (by simpa using ha),
    .inr (by simpa using hs), hm⟩

/-- GVariant has every type, so reading for it is reading for no format. -/
theorem accepts_gvariant_iff {d : Int} {t : Ty} : Accepts ⟨some .gvariant, d⟩ s t ↔ Accepts ⟨none, d⟩ s t :=
  ⟨fun ⟨h1, h2, h3, h4, h5, _⟩ => ⟨h1, h2, h3, h4, h5, nofun⟩,
    fun ⟨h1, h2, h3, h4, h5, _⟩ => ⟨h1, h2, h3, h4, h5, nofun⟩⟩

end Signature

end Marshal
