import Mathlib.Tactic
import Marshal.Text.ObjectPath
/-!
# What an object path is

The recogniser walks a text once. What it accepts is said here without it, in two ways that come to the same
(`isValid_iff`): an object path is put together from elements, and it is a text of some characters in which a slash is
always followed by something else. The induction is on the text in both cases; what the recogniser has to remember of
what came before is whether the last character was a slash.
-/
namespace Marshal.ObjectPath

/-- The characters that an element can have, one by one. -/
def nameChars : Text := Text.ofString "ABCDEFGHIJKLMNOPQRSTUVWXYZabcdefghijklmnopqrstuvwxyz0123456789_"

/-- What stands behind a slash: one or more characters. -/
def IsElement (e : Text) : Prop := e ≠ [] ∧ ∀ c ∈ e, c ∈ nameChars

/-- Elements in a row, each behind its slash. -/
def join (es : List Text) : Text := es.flatMap (slash :: ·)

theorem isNameChar_iff {c : CodePoint} : isNameChar c = true ↔ c ∈ nameChars := by
  have hascii : ∀ c < 128, isNameChar c = true ↔ c ∈ nameChars := by decide +kernel
  have hname : ∀ c ∈ nameChars, c < 128 := by decide +kernel
  by_cases hc : c < 128
  · exact hascii c hc
  · refine iff_of_false (fun h => hc ?_) fun h => hc (hname c h)
    simp only [isNameChar, Bool.or_eq_true, Bool.and_eq_true, decide_eq_true_eq, beq_iff_eq, Char.reduceToNat] at h
    grind

theorem slash_notMem_nameChars : slash ∉ nameChars := by decide

variable {c last : CodePoint} {t : Text} {fresh : Bool}

theorem completes_nil : completes fresh [] = true ↔ fresh = false := by
  rw [completes, Bool.not_eq_true']

/-- A character of an element goes on with it. -/
theorem completes_name (hc : c ∈ nameChars) : completes fresh (c :: t) = completes false t := by
  rw [completes, if_pos (isNameChar_iff.2 hc)]

/-- Any other character has to be a slash, and behind another character. -/
theorem completes_other (hc : c ∉ nameChars) :
    completes fresh (c :: t) = true ↔ fresh = false ∧ c = slash ∧ completes true t = true := by
  rw [completes, if_neg (mt isNameChar_iff.1 hc), Bool.and_eq_true, Bool.and_eq_true, Bool.not_eq_true', beq_iff_eq,
    and_assoc]

theorem isValid_cons : isValid (c :: t) = true ↔ c = slash ∧ (t = [] ∨ completes true t = true) := by
  rw [isValid, Bool.and_eq_true, beq_iff_eq, Bool.or_eq_true, List.isEmpty_iff]

/-! ## From elements -/

theorem join_cons (e : Text) (es : List Text) : join (e :: es) = slash :: (e ++ join es) := rfl

/-- What completes a path is the rest of an element and then elements. The rest is not empty behind a slash. -/
theorem completes_iff_join : ∀ {t : Text} {fresh : Bool}, completes fresh t = true ↔
    ∃ rest es, t = rest ++ join es ∧ (∀ c ∈ rest, c ∈ nameChars) ∧ (fresh = true → rest ≠ []) ∧ ∀ e ∈ es, IsElement e
  | [], fresh => by
    rw [completes_nil]
    constructor
    · rintro rfl
      exact ⟨[], [], rfl, nofun, nofun, nofun⟩
    · rintro ⟨rest, es, h, -, hrest, -⟩
      exact Bool.eq_false_iff.2 fun hfresh => hrest hfresh (List.append_eq_nil_iff.1 h.symm).1
  | c :: t, fresh => by
    by_cases hc : c ∈ nameChars
    · rw [completes_name hc, completes_iff_join]
      constructor
      · rintro ⟨rest, es, rfl, hrest, -, hes⟩
        exact ⟨c :: rest, es, rfl, List.forall_mem_cons.2 ⟨hc, hrest⟩, fun _ => List.cons_ne_nil c rest, hes⟩
      · rintro ⟨_ | ⟨b, rest⟩, es, h, hrest, -, hes⟩
        · -- the elements do not start with a character of an element
          cases es with
          | nil => cases h
          | cons e es => exact absurd ((List.cons.inj h).1 ▸ hc) slash_notMem_nameChars
        · exact ⟨rest, es, (List.cons.inj h).2, (List.forall_mem_cons.1 hrest).2, nofun, hes⟩
    · rw [completes_other hc, completes_iff_join]
      constructor
      · rintro ⟨rfl, rfl, rest, es, rfl, hrest, hne, hes⟩
        exact ⟨[], rest :: es, rfl, nofun, nofun, List.forall_mem_cons.2 ⟨⟨hne rfl, hrest⟩, hes⟩⟩
      · rintro ⟨_ | ⟨b, rest⟩, es, h, hrest, hne, hes⟩
        · cases es with
          | nil => cases h
          | cons e es =>
            obtain ⟨rfl, rfl⟩ := List.cons.inj (h.trans (join_cons e es))
            obtain ⟨⟨hne', he⟩, hes⟩ := List.forall_mem_cons.1 hes
            exact ⟨Bool.eq_false_iff.2 fun hfresh => hne hfresh rfl, rfl, e, es, rfl, he, fun _ => hne', hes⟩
        · exact absurd ((List.cons.inj h).1 ▸ (List.forall_mem_cons.1 hrest).1) hc

theorem isValid_iff_join :
    ∀ {t : Text}, isValid t = true ↔ t = [slash] ∨ ∃ es, es ≠ [] ∧ (∀ e ∈ es, IsElement e) ∧ t = join es
  | [] => by
    refine iff_of_false nofun ?_
    rintro (h | ⟨_ | ⟨e, es⟩, hne, -, h⟩)
    · cases h
    · exact hne rfl
    · cases h
  | c :: t => by
    rw [isValid_cons, completes_iff_join]
    constructor
    · rintro ⟨rfl, rfl | ⟨rest, es, rfl, hrest, hne, hes⟩⟩
      · exact .inl rfl
      · exact .inr ⟨rest :: es, List.cons_ne_nil _ _, List.forall_mem_cons.2 ⟨⟨hne rfl, hrest⟩, hes⟩, rfl⟩
    · rintro (h | ⟨_ | ⟨e, es⟩, hne, hes, h⟩)
      · obtain ⟨rfl, rfl⟩ := List.cons.inj h
        exact ⟨rfl, .inl rfl⟩
      · exact absurd rfl hne
      · obtain ⟨rfl, rfl⟩ := List.cons.inj (h.trans (join_cons e es))
        obtain ⟨⟨hne', he⟩, hes⟩ := List.forall_mem_cons.1 hes
        exact ⟨rfl, .inr ⟨e, es, rfl, he, fun _ => hne', hes⟩⟩

/-! ## By what follows what -/

theorem infix_slashes_iff :
    [slash, slash] <:+: last :: c :: t ↔ last = slash ∧ c = slash ∨ [slash, slash] <:+: c :: t := by
  rw [List.infix_cons_iff, List.cons_prefix_cons, List.cons_prefix_cons]
  simp only [List.nil_prefix, and_true, eq_comm]

theorem not_infix_singleton : ¬ [slash, slash] <:+: [c] := fun h => absurd h.length_le (Nat.lt_irrefl 1)

theorem completes_slash : completes true t = completes (slash == slash) t := rfl

/-- What completes a path, told from the last character before it. -/
theorem completes_iff_infix : ∀ {t : Text} {last : CodePoint}, completes (last == slash) t = true ↔
    (∀ c ∈ t, c = slash ∨ c ∈ nameChars) ∧ ¬ [slash, slash] <:+: last :: t ∧ (last :: t).getLast? ≠ some slash
  | [], last => by
    rw [completes_nil, beq_eq_false_iff_ne]
    simp [not_infix_singleton]
  | c :: t, last => by
    rw [infix_slashes_iff, List.forall_mem_cons, List.getLast?_cons_cons]
    by_cases hc : c ∈ nameChars
    · have hne : c ≠ slash := fun h => slash_notMem_nameChars (h ▸ hc)
      rw [completes_name hc, ← beq_eq_false_iff_ne.2 hne, completes_iff_infix]
      simp [hc, hne]
    · rw [completes_other hc, beq_eq_false_iff_ne]
      by_cases hslash : c = slash
      · subst hslash
        rw [completes_slash, completes_iff_infix]
        simp only [true_and, and_true, true_or, not_or]
        tauto
      · simp [hc, hslash]

theorem isValid_iff_infix : ∀ {t : Text}, isValid t = true ↔ t.head? = some slash ∧
    (∀ c ∈ t, c = slash ∨ c ∈ nameChars) ∧ ¬ [slash, slash] <:+: t ∧ (t.getLast? = some slash → t = [slash])
  | [] => iff_of_false nofun nofun
  | c :: t => by
    rw [isValid_cons, List.head?_cons, Option.some.injEq]
    refine and_congr_right ?_
    rintro rfl
    cases t with
    | nil => simp [not_infix_singleton]
    | cons c t =>
      rw [completes_slash, completes_iff_infix, List.forall_mem_cons]
      simp

/-- **A text is an object path exactly when it is the root, or one or more elements, each behind its slash.** Exactly
these start with a slash, have no other characters than slashes and those of elements, no slash behind a slash, and none
at the end, but for the root itself. -/
theorem isValid_iff (t : Text) :
    (isValid t = true ↔ t = [slash] ∨ ∃ es, es ≠ [] ∧ (∀ e ∈ es, IsElement e) ∧ t = join es) ∧
      (isValid t = true ↔ t.head? = some slash ∧ (∀ c ∈ t, c = slash ∨ c ∈ nameChars) ∧ ¬ [slash, slash] <:+: t ∧
        (t.getLast? = some slash → t = [slash])) := ⟨isValid_iff_join, isValid_iff_infix⟩

end Marshal.ObjectPath
