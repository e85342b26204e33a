import Marshal.Framing.Offset
import Marshal.Proofs.Integer
import Marshal.Proofs.Steps
/-!
# Tables of offsets

A table is the bytes of its offsets in a row, all of one width, and it is determined by what is read at its positions
(`eq_table_iff`). The width that a writer gives to a container depends on the size of its children, the width that a
reader takes depends on the size of the whole. `IsSnug` says for which sizes the two are the same (`isSnug_iff`): all
but a short range behind each size at which the width grows.
-/
namespace Marshal

theorem mapM_eq_ok_iff {ε α β : Type} {f : α → Except ε β} : ∀ {xs : List α} {ys : List β},
    xs.mapM f = .ok ys ↔ List.Forall₂ (fun x y => f x = .ok y) xs ys
  | [], ys => by
    rw [List.mapM_nil, List.forall₂_nil_left_iff]
    exact ⟨fun h => (Except.ok.inj h).symm, fun h => by rw [h]; rfl⟩
  | x :: xs, ys => by
    rw [List.mapM_cons, List.forall₂_cons_left_iff]
    simp only [except_bind_eq_ok, pure, Except.pure, Except.ok.injEq, mapM_eq_ok_iff]
    constructor
    · rintro ⟨y, hy, ys, hys, rfl⟩
      exact ⟨y, ys, hy, hys, rfl⟩
    · rintro ⟨y, ys, hy, hys, rfl⟩
      exact ⟨y, hy, ys, hys, rfl⟩

theorem exists_of_mem_mapM {ε α β : Type} {f : α → Except ε β} {y : β} : ∀ {xs : List α} {ys : List β},
    xs.mapM f = .ok ys → y ∈ ys → ∃ x ∈ xs, f x = .ok y
  | [], ys, h, hy => by
    cases h
    cases hy
  | x :: xs, ys, h, hy => by
    rw [List.mapM_cons] at h
    obtain ⟨z, hz, h⟩ := except_bind_eq_ok.1 h
    obtain ⟨zs, hzs, h⟩ := except_bind_eq_ok.1 h
    cases h
    rcases List.mem_cons.1 hy with rfl | hy
    · exact ⟨x, List.mem_cons_self, hz⟩
    · obtain ⟨w, hw, h⟩ := exists_of_mem_mapM hzs hy
      exact ⟨w, List.mem_cons_of_mem x hw, h⟩

/-- Lists related item by item through a third list. -/
theorem forall₂_comp_iff {α β γ : Type} {R : α → β → Prop} {S : β → γ → Prop} {xs : List α} {zs : List γ} :
    List.Forall₂ (fun x z => ∃ y, R x y ∧ S y z) xs zs ↔ ∃ ys, List.Forall₂ R xs ys ∧ List.Forall₂ S ys zs := by
  constructor
  · intro h
    induction h with
    | nil => exact ⟨[], .nil, .nil⟩
    | cons h _ ih =>
      obtain ⟨y, hy, hz⟩ := h
      obtain ⟨ys, hys, hzs⟩ := ih
      exact ⟨y :: ys, .cons hy hys, .cons hz hzs⟩
  · rintro ⟨ys, hys, hzs⟩
    induction hys generalizing zs with
    | nil =>
      cases hzs
      exact .nil
    | cons hy _ ih =>
      cases hzs with
      | cons hz hzs => exact .cons ⟨_, hy, hz⟩ (ih hzs)

theorem forall₂_congr {α β : Type} {P Q : α → β → Prop} {xs : List α} {ys : List β}
    (h : List.Forall₂ (fun x y => P x y ↔ Q x y) xs ys) : List.Forall₂ P xs ys ↔ List.Forall₂ Q xs ys := by
  induction h with
  | nil => exact ⟨fun _ => .nil, fun _ => .nil⟩
  | cons h _ ih => rw [List.forall₂_cons, List.forall₂_cons, h, ih]

/-- Steps taken in turn for each item succeed exactly when they do one after the other for all. -/
theorem mapM_bind_eq_ok_iff {ε α β γ : Type} {f : α → Except ε β} {g : β → Except ε γ} {xs : List α} {zs : List γ} :
    (xs.mapM fun x => f x >>= g) = .ok zs ↔ ∃ ys, xs.mapM f = .ok ys ∧ List.Forall₂ (fun y z => g y = .ok z) ys zs := by
  simp only [mapM_eq_ok_iff, except_bind_eq_ok]
  exact forall₂_comp_iff

/-- Where the first of two steps gives something for every item, the second is all that is left. -/
theorem mapM_bind_of_ok {ε α β γ : Type} {f : α → Except ε β} {g : β → Except ε γ} {xs : List α} {ys : List β}
    (h : xs.mapM f = .ok ys) : (xs.mapM fun x => f x >>= g) = ys.mapM g := by
  have hf := mapM_eq_ok_iff.1 h
  clear h
  induction hf with
  | nil => rfl
  | cons hx _ ih =>
    rw [List.mapM_cons, List.mapM_cons, ih, hx]
    rfl

theorem mapM_congr {ε α β : Type} {f g : α → Except ε β} : ∀ {xs : List α}, (∀ x ∈ xs, f x = g x) →
    xs.mapM f = xs.mapM g
  | [], _ => by rw [List.mapM_nil, List.mapM_nil]
  | x :: xs, h => by
    obtain ⟨h1, h2⟩ := List.forall_mem_cons.1 h
    rw [List.mapM_cons, List.mapM_cons, h1, mapM_congr h2]

namespace Framing

/-- The part of a list of bytes that is in a window. -/
def Window.slice (w : Window) (bs : List UInt8) : List UInt8 := (bs.drop w.start).take (w.stop - w.start)

theorem Window.of_toArray (w : Window) (bs : List UInt8) : w.of bs.toArray = w.slice bs := by
  rw [Window.of, List.extract_toArray, List.extract_eq_take_drop]
  rfl

/-! ## The bytes of a table -/

def table (w : Nat) (offsets : List Nat) : List UInt8 := offsets.flatMap (Integer.digits w)

/-- What stands at a position, read as an offset. -/
def entry (w : Nat) (bs : List UInt8) (position : Nat) : Nat := Integer.ofDigits ((bs.drop position).take w)

variable {w : Nat} {bs : List UInt8}

theorem table_cons (x : Nat) (xs : List Nat) : table w (x :: xs) = Integer.digits w x ++ table w xs := List.flatMap_cons

theorem length_table : ∀ xs : List Nat, (table w xs).length = w * xs.length
  | [] => rfl
  | x :: xs => by
    rw [table_cons, List.length_append, Integer.length_digits, length_table xs, List.length_cons]
    ring

/-- **A table is determined by what is read at its positions**, in either order of reading. -/
theorem eq_table_iff : ∀ {xs : List Nat} {bs : List UInt8},
    (bs = table w xs ∧ ∀ x ∈ xs, x < 256 ^ w) ↔
      bs.length = w * xs.length ∧ ∀ i (h : i < xs.length), xs[i] = entry w bs (w * i)
  | [], bs => by
    simp [table]
  | x :: xs, bs => by
    constructor
    · rintro ⟨rfl, hx⟩
      refine ⟨length_table _, fun i hi => ?_⟩
      rw [table_cons]
      cases i with
      | zero =>
        rw [entry, Nat.mul_zero, List.drop_zero, List.take_left' (Integer.length_digits w x), List.getElem_cons_zero,
          Integer.ofDigits_digits_of_lt (hx x (List.mem_cons_self ..))]
      | succ i =>
        have h := (eq_table_iff.1 ⟨rfl, fun y hy => hx y (List.mem_cons_of_mem x hy)⟩).2 i (Nat.succ_lt_succ_iff.1 hi)
        have hdrop : (Integer.digits w x ++ table w xs).drop (w * (i + 1)) = (table w xs).drop (w * i) := by
          rw [Nat.mul_succ, Nat.add_comm, ← List.drop_drop, List.drop_left' (Integer.length_digits w x)]
        rw [List.getElem_cons_succ, h, entry, entry, hdrop]
    · rintro ⟨hlen, hx⟩
      rw [List.length_cons, Nat.mul_succ] at hlen
      have h0 := hx 0 (Nat.succ_pos _)
      rw [List.getElem_cons_zero, entry, Nat.mul_zero, List.drop_zero] at h0
      have hw : (bs.take w).length = w := by rw [List.length_take]; omega
      obtain ⟨hrest, hlt⟩ : bs.drop w = table w xs ∧ ∀ x ∈ xs, x < 256 ^ w := by
        refine eq_table_iff.2 ⟨by rw [List.length_drop]; omega, fun i hi => ?_⟩
        have h := hx (i + 1) (Nat.succ_lt_succ hi)
        rwa [List.getElem_cons_succ, entry, Nat.mul_succ, Nat.add_comm, ← List.drop_drop] at h
      have hdigits := Integer.digits_ofDigits (bs.take w)
      rw [hw, ← h0] at hdigits
      have hbound := Integer.ofDigits_lt (bs.take w)
      rw [hw, ← h0] at hbound
      constructor
      · rw [table_cons, hdigits, ← hrest, List.take_append_drop]
      · intro y hy
        rcases List.mem_cons.1 hy with rfl | hy
        · exact hbound
        · exact hlt y hy

theorem entry_drop (n p : Nat) : entry w (bs.drop n) p = entry w bs (n + p) := by
  rw [entry, List.drop_drop, entry]

/-- The offsets at the end of a list of bytes, read from its start. -/
theorem drop_eq_table_iff {xs : List Nat} {n : Nat} (hn : n + w * xs.length = bs.length) :
    (bs.drop n = table w xs ∧ ∀ x ∈ xs, x < 256 ^ w) ↔
      xs = (List.range' 0 xs.length).map fun i => entry w bs (n + i * w) := by
  have hlen : (bs.drop n).length = w * xs.length := by rw [List.length_drop]; omega
  rw [eq_table_iff, and_iff_right hlen]
  simp only [entry_drop]
  constructor
  · intro h
    refine List.ext_getElem (by simp) fun i h1 _ => ?_
    rw [h i h1, List.getElem_map, List.getElem_range', Nat.zero_add, Nat.one_mul, Nat.mul_comm]
  · intro h i hi
    rw [List.getElem_of_eq h hi, List.getElem_map, List.getElem_range', Nat.zero_add, Nat.one_mul, Nat.mul_comm]

/-- The same for offsets that are read from the end. -/
theorem drop_eq_table_reverse_iff {xs : List Nat} {n : Nat} (hn : n + w * xs.length = bs.length) :
    (bs.drop n = table w xs.reverse ∧ ∀ x ∈ xs, x < 256 ^ w) ↔
      xs = (List.range' 0 xs.length).map fun i => entry w bs (bs.length - w * (i + 1)) := by
  have h : (bs.drop n = table w xs.reverse ∧ ∀ x ∈ xs.reverse, x < 256 ^ w) ↔ _ :=
    drop_eq_table_iff (by rwa [List.length_reverse])
  simp only [List.mem_reverse, List.length_reverse] at h
  rw [h, List.reverse_eq_iff]
  have hrev : ((List.range' 0 xs.length).map fun i => entry w bs (n + i * w)).reverse =
      (List.range' 0 xs.length).map fun i => entry w bs (bs.length - w * (i + 1)) := by
    refine List.ext_getElem (by simp) fun i h1 h2 => ?_
    simp only [List.length_map, List.length_range'] at h2
    rw [List.getElem_reverse, List.getElem_map, List.getElem_range', List.getElem_map, List.getElem_range']
    simp only [List.length_map, List.length_range', Nat.zero_add, Nat.one_mul]
    have hsplit : w * xs.length = (xs.length - 1 - i) * w + w * (i + 1) := by
      rw [Nat.mul_comm (xs.length - 1 - i) w, ← Nat.mul_add]
      congr 1
      omega
    congr 1
    omega
  rw [hrev]

theorem offsetAt_eq {p : Nat} (h : p + w ≤ bs.length) : offsetAt bs.toArray p w = .ok (entry w bs p) := by
  have hend : fromEnd bs.toArray.size ((p : Int) + w) = p + w := by
    rw [fromEnd, if_neg (by omega)]
    omega
  rw [offsetAt, if_neg (by simp only [List.size_toArray]; omega), hend, Int.toNat_natCast, Window.of_toArray,
    Window.slice,
    Nat.add_sub_cancel_left]
  rfl

/-! ## Writing a table -/

def tableBytes (w : Nat) (xs : List Nat) : Except Error (List UInt8) :=
  if ∀ x ∈ xs, x < 256 ^ w then .ok (table w xs) else .error .offsetTooLarge

theorem tableBytes_eq_ok {xs : List Nat} : tableBytes w xs = .ok bs ↔ (∀ x ∈ xs, x < 256 ^ w) ∧ bs = table w xs := by
  unfold tableBytes
  split
  · rename_i h
    simp only [Except.ok.injEq, eq_comm (a := table w xs)]
    exact ⟨fun hb => ⟨h, hb⟩, And.right⟩
  · rename_i h
    simp only [reduceCtorEq, false_iff, not_and]
    exact fun h1 => absurd h1 h

theorem offsetBytes?_eq (w n : Nat) : offsetBytes? w n = if n < 256 ^ w then some (Integer.digits w n) else none := by
  rw [offsetBytes?, Integer.encode?]
  simp only [Integer.fits_natCast_iff]
  split
  · rename_i h
    have hmod : ((n : Int) % 256 ^ w).toNat = n := by
      rw [Int.emod_eq_of_lt (by omega) (by exact_mod_cast h), Int.toNat_natCast]
    rw [hmod]
    rfl
  · rfl

/-- The bytes of one offset, which may be any number. -/
def offsetBytes (w : Nat) (n : Int) : Except Error (List UInt8) :=
  if n < 0 then .error .offsetNegative
  else
    match offsetBytes? w n with
    | some bs => .ok bs
    | none => .error .offsetTooLarge

def offsetsBytes (w : Nat) : List Int → Except Error (List UInt8)
  | [] => .ok []
  | n :: ns => do
    let as ← offsetBytes w n
    let bs ← offsetsBytes w ns
    return as ++ bs

open Put in
theorem emits_putOffset (w : Nat) (n : Int) : Emits (putOffset w n) (offsetBytes w n) := by
  unfold putOffset offsetBytes
  split
  · exact emits_throw _
  · cases offsetBytes? w n with
    | none => exact emits_throw _
    | some bs => exact emits_writeBytes bs

open Put in
theorem emits_forEach_putOffset (w : Nat) : ∀ ns : List Int, Emits (Put.forEach (putOffset w) ns) (offsetsBytes w ns)
  | [] => emits_pure
  | n :: ns => (emits_putOffset w n).andThen (emits_forEach_putOffset w ns)

/-- The offsets that a container really has are not negative. -/
theorem offsetsBytes_natCast (w : Nat) : ∀ xs : List Nat, offsetsBytes w (xs.map Int.ofNat) = tableBytes w xs
  | [] => rfl
  | x :: xs => by
    have hx : ¬ (Int.ofNat x < 0) := Int.not_lt.2 (Int.natCast_nonneg x)
    rw [List.map_cons, offsetsBytes, offsetsBytes_natCast w xs, offsetBytes, if_neg hx]
    simp only [Int.ofNat_eq_natCast, offsetBytes?_eq, tableBytes, List.forall_mem_cons]
    by_cases h1 : x < 256 ^ w
    · by_cases h2 : ∀ y ∈ xs, y < 256 ^ w
      · rw [if_pos h1, if_pos h2, if_pos ⟨h1, h2⟩]
        rfl
      · rw [if_pos h1, if_neg h2, if_neg fun h => h2 h.2]
        rfl
    · rw [if_neg h1, if_neg (not_and_of_not_left (∀ y ∈ xs, y < 256 ^ w) h1)]
      rfl

/-! ## The width of offsets -/

theorem offsetWidth_pos {size : Nat} (h : 0 < size) : 0 < offsetWidth size := by
  unfold offsetWidth
  split_ifs <;> omega

theorem offsetWidth_le (size : Nat) : offsetWidth size ≤ size := by
  unfold offsetWidth
  split_ifs <;> omega

/-- The size of a container is that of its children and of its table, whose width follows from the size. -/
theorem containerSize_eq (body count : Nat) :
    containerSize body count = body + offsetWidth (containerSize body count) * count := by
  unfold containerSize offsetWidth
  grind

/-- Whether a container with a number of offsets has a size that writers give to one: it is not empty, and not so little
above a size at which offsets get wider that narrower ones would have done. -/
def IsSnug (size count : Nat) : Prop :=
  count = 0 ∨ 0 < size ∧ (0xFF < size → 0xFF + count < size) ∧ (0xFFFF < size → 0xFFFF + 2 * count < size) ∧
    (0xFFFFFFFF < size → 0xFFFFFFFF + 4 * count < size)

theorem isSnug_zero (size : Nat) : IsSnug size 0 := .inl rfl

/-- **A container is snug when a writer gives its size to the children that a reader finds in it.** -/
theorem isSnug_iff {size count : Nat} (h : offsetWidth size * count ≤ size) :
    IsSnug size count ↔ containerSize (size - offsetWidth size * count : Nat) count = size := by
  have hw : offsetWidth size = 8 ∧ 0xFFFFFFFF < size ∨ offsetWidth size = 4 ∧ 0xFFFF < size ∧ size ≤ 0xFFFFFFFF ∨
      offsetWidth size = 2 ∧ 0xFF < size ∧ size ≤ 0xFFFF ∨ offsetWidth size = 1 ∧ 0 < size ∧ size ≤ 0xFF ∨
      offsetWidth size = 0 ∧ size = 0 := by
    unfold offsetWidth
    split_ifs <;> omega
  rw [IsSnug]
  rcases hw with ⟨hw, hs⟩ | ⟨hw, hs⟩ | ⟨hw, hs⟩ | ⟨hw, hs⟩ | ⟨hw, hs⟩ <;> rw [hw] at h ⊢ <;> unfold containerSize <;>
    split_ifs <;> omega

end Framing

end Marshal
