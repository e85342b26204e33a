import Mathlib.Data.List.Forall2
/-!
# Bytes that matter and bytes that do not

An encoding is described by cells: one for each byte, which is either given or padding. Writers write zero into padding
(`render`), readers take any byte there: `Matches cs bs` says that the bytes agree with the cells wherever these are
given. Bytes that match are the rendered ones exactly when their padding is zero (`eq_render_of_matches`).
-/
namespace Marshal

/-- A byte of an encoding, none for padding. -/
abbrev Cell := Option UInt8

namespace Cell

def given (bs : List UInt8) : List Cell := bs.map some

def blank (n : Nat) : List Cell := List.replicate n none

/-- The bytes that are written for cells. -/
def render (cs : List Cell) : List UInt8 := cs.map (·.getD 0)

/-- Whether bytes are those of the cells, but for padding. -/
def Matches (cs : List Cell) (bs : List UInt8) : Prop := List.Forall₂ (fun c b => ∀ x ∈ c, x = b) cs bs

@[simp] theorem length_given (bs : List UInt8) : (given bs).length = bs.length := List.length_map _

@[simp] theorem length_blank (n : Nat) : (blank n).length = n := List.length_replicate

@[simp] theorem length_render (cs : List Cell) : (render cs).length = cs.length := List.length_map _

@[simp] theorem given_nil : given [] = [] := rfl

@[simp] theorem given_append (as bs : List UInt8) : given (as ++ bs) = given as ++ given bs := List.map_append

@[simp] theorem blank_zero : blank 0 = [] := rfl

@[simp] theorem render_nil : render [] = [] := rfl

@[simp] theorem render_append (cs ds : List Cell) : render (cs ++ ds) = render cs ++ render ds := List.map_append

@[simp] theorem render_given (bs : List UInt8) : render (given bs) = bs := by
  induction bs with
  | nil => rfl
  | cons b bs ih => rw [given, List.map_cons, render, List.map_cons]; exact congrArg (b :: ·) ih

@[simp] theorem render_blank (n : Nat) : render (blank n) = List.replicate n 0 := by
  rw [render, blank, List.map_replicate]
  rfl

namespace Matches

theorem length_eq {cs : List Cell} {bs : List UInt8} (h : Matches cs bs) : cs.length = bs.length :=
  List.Forall₂.length_eq h

theorem append {cs ds : List Cell} {as bs : List UInt8} (h1 : Matches cs as) (h2 : Matches ds bs) :
    Matches (cs ++ ds) (as ++ bs) := List.rel_append h1 h2

end Matches

theorem matches_nil_iff {bs : List UInt8} : Matches [] bs ↔ bs = [] := List.forall₂_nil_left_iff

/-- Bytes match cells in a row exactly when they split into bytes that match each. -/
theorem matches_append_iff {cs ds : List Cell} {bs : List UInt8} :
    Matches (cs ++ ds) bs ↔ ∃ bs₁ bs₂, bs = bs₁ ++ bs₂ ∧ Matches cs bs₁ ∧ Matches ds bs₂ := by
  constructor
  · intro h
    refine ⟨bs.take cs.length, bs.drop cs.length, (List.take_append_drop _ _).symm, ?_, ?_⟩
    · exact List.forall₂_take_append bs cs ds h.flip |>.flip
    · exact List.forall₂_drop_append bs cs ds h.flip |>.flip
  · rintro ⟨bs₁, bs₂, rfl, h1, h2⟩
    exact h1.append h2

theorem matches_append_append_iff {cs ds : List Cell} {as bs : List UInt8} (h : cs.length = as.length) :
    Matches (cs ++ ds) (as ++ bs) ↔ Matches cs as ∧ Matches ds bs := by
  constructor
  · intro hm
    obtain ⟨as', bs', heq, h1, h2⟩ := matches_append_iff.1 hm
    obtain ⟨rfl, rfl⟩ := List.append_inj heq (h.symm.trans h1.length_eq)
    exact ⟨h1, h2⟩
  · rintro ⟨h1, h2⟩
    exact h1.append h2

theorem matches_given_iff {as bs : List UInt8} : Matches (given as) bs ↔ bs = as := by
  rw [Matches, given, List.forall₂_map_left_iff]
  simp only [Option.mem_def, Option.some.injEq, forall_eq', List.forall₂_eq_eq_eq]
  exact eq_comm

theorem matches_blank_iff {n : Nat} {bs : List UInt8} : Matches (blank n) bs ↔ bs.length = n := by
  constructor
  · intro h
    rw [← h.length_eq, length_blank]
  · rintro rfl
    induction bs with
    | nil => exact .nil
    | cons b bs ih => exact .cons nofun ih

/-- What is written for cells matches them. -/
theorem matches_render (cs : List Cell) : Matches cs (render cs) := by
  induction cs with
  | nil => exact .nil
  | cons c cs ih => exact .cons (fun x hx => by rw [Option.mem_def.1 hx]; rfl) ih

/-- **Bytes that match cells are the written ones as soon as their padding is zero.** -/
theorem eq_render_of_matches {cs : List Cell} {bs : List UInt8} (h : Matches cs bs)
    (h0 : ∀ i : Nat, cs[i]? = some none → bs[i]? = some 0) : bs = render cs := by
  induction h with
  | nil => rfl
  | @cons c b cs bs hc _ ih =>
    rw [render, List.map_cons, ← render, ← ih fun i hi => h0 (i + 1) hi]
    congr 1
    cases c with
    | none => exact Option.some.inj (h0 0 rfl)
    | some x => exact (hc x rfl).symm

/-- Bytes that match cells are the written ones wherever there is no padding. -/
theorem getElem?_eq_of_matches {cs : List Cell} {bs : List UInt8} (h : Matches cs bs) :
    ∀ {i : Nat}, cs[i]? ≠ some none → (render cs)[i]? = bs[i]? := by
  induction h with
  | nil => exact fun _ => rfl
  | @cons c b cs bs hc _ ih =>
    intro i hi
    cases i with
    | zero =>
      cases c with
      | none => exact absurd rfl hi
      | some x => rw [← hc x rfl]; rfl
    | succ i => exact ih hi

theorem getElem?_render_of_padding {cs : List Cell} {i : Nat} (h : cs[i]? = some none) : (render cs)[i]? = some 0 := by
  rw [render, List.getElem?_map, h]
  rfl

/-- Bytes that are written where others were read: they agree with them but for padding, and their own padding is
zero. -/
structure Normalizes (cs : List Cell) (data bs : List UInt8) : Prop where
  length : bs.length = data.length
  given (i : Nat) : cs[i]? ≠ some none → bs[i]? = data[i]?
  padding (i : Nat) : cs[i]? = some none → bs[i]? = some 0
  /-- So they are the bytes that were read when the padding of these is zero. -/
  eq : (∀ i : Nat, cs[i]? = some none → data[i]? = some 0) → bs = data

theorem Matches.normalizes {cs : List Cell} {data : List UInt8} (h : Matches cs data) :
    Normalizes cs data (render cs) where
  length := by rw [length_render, h.length_eq]
  given _ hi := getElem?_eq_of_matches h hi
  padding _ hi := getElem?_render_of_padding hi
  eq h0 := (eq_render_of_matches h h0).symm

theorem Normalizes.matches {cs : List Cell} {data : List UInt8} (h : Normalizes cs data (render cs)) :
    Matches cs data := by
  have hlen : cs.length = data.length := by rw [← h.length, length_render]
  refine List.forall₂_iff_get.2 ⟨hlen, fun i h1 h2 x hx => ?_⟩
  have hcell : cs[i]? = some (some x) := by rw [List.getElem?_eq_getElem h1, ← Option.mem_def.1 hx, List.get_eq_getElem]
  have hbyte := h.given i (by simp [hcell])
  rw [render, List.getElem?_map, hcell, List.getElem?_eq_getElem h2] at hbyte
  exact Option.some.inj hbyte

end Cell

end Marshal
