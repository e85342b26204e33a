import Marshal.Proofs.Composition
import Marshal.Proofs.Framing.Extent
/-!
# Tables are as narrow as they can be and lose nothing

The width of offsets follows from the size of a container, and that size from the width. Below `2 ^ 64` bytes the circle
closes at the least width with which the whole container can be addressed (`isLeast_offsetWidth`), so that an offset
into the children has room at that width. Hence a table is written without an overflow, and a reader, who has nothing
but the size of the whole, takes the same width and finds every offset again (`putOffsets_lossless`).
-/
namespace Marshal.Framing

open Put

variable {body count w : Nat} {xs : List Nat}

/-- The width is one of four, wide enough for the container with its table, and the narrower ones are not. -/
theorem offsetWidth_containerSize (hc : 0 < count) (h : containerSize body count < 2 ^ 64) :
    (offsetWidth (containerSize body count) = 1 ∧ body + count ≤ 0xFF) ∨
      (offsetWidth (containerSize body count) = 2 ∧ 0xFF < body + count ∧ body + count * 2 ≤ 0xFFFF) ∨
      (offsetWidth (containerSize body count) = 4 ∧ 0xFFFF < body + count * 2 ∧ body + count * 4 ≤ 0xFFFFFFFF) ∨
      (offsetWidth (containerSize body count) = 8 ∧ 0xFFFFFFFF < body + count * 4 ∧ body + count * 8 < 2 ^ 64) := by
  unfold containerSize at h ⊢
  unfold offsetWidth
  split_ifs at h ⊢ <;> omega

/-- **The width of offsets is the least with which the whole container, its table included, can be addressed.** -/
theorem isLeast_offsetWidth (hc : 0 < count) (h : containerSize body count < 2 ^ 64) :
    IsLeast {w | w ∈ [1, 2, 4, 8] ∧ body + count * w ≤ 2 ^ (8 * w) - 1} (offsetWidth (containerSize body count)) := by
  have hcases := offsetWidth_containerSize hc h
  constructor
  · rcases hcases with ⟨hw, hfit⟩ | ⟨hw, -, hfit⟩ | ⟨hw, -, hfit⟩ | ⟨hw, -, hfit⟩ <;> rw [hw] <;>
      exact ⟨by decide, by omega⟩
  · rintro v ⟨hv, hfit⟩
    simp only [List.mem_cons, List.not_mem_nil, or_false] at hv
    rcases hv with rfl | rfl | rfl | rfl <;> omega

/-- A table with room for its offsets is appended, and only a cap can refuse it. -/
theorem putOffsets_apply (hxs : ∀ x ∈ xs, x < 256 ^ offsetWidth (containerSize body xs.length)) (s : Sink) :
    (∃ caps, putOffsets (xs.map Int.ofNat) body s =
        .ok () ⟨s.bytes ++ table (offsetWidth (containerSize body xs.length)) xs, caps⟩) ∨
      ∃ limit ∈ s.caps.map Cap.limit, ∃ s',
        putOffsets (xs.map Int.ofNat) body s = .error (.outputOverCap limit) s' := by
  obtain ⟨bytes, caps⟩ := s
  have hbytes := emits_forEach_putOffset (offsetWidth (containerSize body xs.length)) (xs.map Int.ofNat)
  rw [offsetsBytes_natCast, tableBytes_eq_ok.2 ⟨hxs, rfl⟩] at hbytes
  have hbare := hbytes.apply_of_ok bytes rfl
  rw [Cell.render_given] at hbare
  have hcomposed : Composed 0 (putOffsets (xs.map Int.ofNat) body) := composed_putOffsets _ _
  rw [putOffsets, List.length_map] at hcomposed ⊢
  cases hr : forEach (putOffset (offsetWidth (containerSize body xs.length))) (xs.map Int.ofNat) ⟨bytes, caps⟩ with
  | ok a s' =>
    obtain ⟨hok, -⟩ := hcomposed.ok_of_capped hr
    obtain ⟨-, hs⟩ := EStateM.Result.ok.inj (hok.symm.trans hbare)
    rw [← (Sink.mk.inj hs).1]
    exact .inl ⟨s'.caps, rfl⟩
  | error e s' =>
    rcases hcomposed.error_of_capped hr with herror | ⟨limit, hlimit, rfl⟩
    · cases herror.symm.trans hbare
    · exact .inr ⟨limit, hlimit, s', rfl⟩

/-- Every offset is read again at its place in a table that ends a container. -/
theorem offsetAt_append_table (hxs : ∀ x ∈ xs, x < 256 ^ w) (children : List UInt8) {i : Nat} (hi : i < xs.length) :
    offsetAt (children ++ table w xs).toArray (children.length + i * w : Nat) w = .ok xs[i] := by
  have hend : i * w + w ≤ (table w xs).length := by
    rw [length_table, Nat.mul_comm w, ← Nat.succ_mul]
    exact Nat.mul_le_mul_right w hi
  rw [offsetAt_eq (by rw [List.length_append]; omega), ← entry_drop, List.drop_left, Nat.mul_comm i,
    ← (eq_table_iff.1 ⟨rfl, hxs⟩).2 i hi]

/-- **Tables are as narrow as they can be and lose nothing.** For offsets into children of `body` bytes, in a container
of less than `2 ^ 64`: the width is the least with which the container can be addressed, the table takes the bytes that
the size of the container counts for it, no offset overflows, and in every container of this size that ends with the
table a reader takes the same width and finds each offset at its place. -/
theorem putOffsets_lossless (hne : xs ≠ []) (hxs : ∀ x ∈ xs, x ≤ body) (h : containerSize body xs.length < 2 ^ 64) :
    ∃ w, offsetWidth (containerSize body xs.length) = w ∧ containerSize body xs.length = body + xs.length * w ∧
      IsLeast {v | v ∈ [1, 2, 4, 8] ∧ body + xs.length * v ≤ 2 ^ (8 * v) - 1} w ∧
      (table w xs).length = xs.length * w ∧
      (∀ s : Sink,
        (∃ caps, putOffsets (xs.map Int.ofNat) body s = .ok () ⟨s.bytes ++ table w xs, caps⟩) ∨
          ∃ limit ∈ s.caps.map Cap.limit, ∃ s',
            putOffsets (xs.map Int.ofNat) body s = .error (.outputOverCap limit) s') ∧
      ∀ data : List UInt8, data.length = containerSize body xs.length → table w xs <:+ data →
        offsetWidth data.length = w ∧
          ∀ i (hi : i < xs.length), offsetAt data.toArray (body + i * w : Nat) w = .ok xs[i] := by
  have hc : 0 < xs.length := List.length_pos_iff.2 hne
  have hframed : framedSize body xs.length < 2 ^ 64 := by
    have := natCast_framedSize body xs.length
    omega
  have hroom : ∀ x ∈ xs, x < 256 ^ offsetWidth (containerSize body xs.length) :=
    fun x hx => lt_pow_offsetWidth_containerSize (hxs x hx) hframed
  have hsize := containerSize_eq body xs.length
  have hlen := length_table (w := offsetWidth (containerSize body xs.length)) xs
  refine ⟨_, rfl, by rwa [mul_comm (xs.length : Int)], isLeast_offsetWidth hc h, by rwa [mul_comm xs.length],
    putOffsets_apply hroom, ?_⟩
  rintro _ hdata ⟨children, rfl⟩
  have hchildren : children.length = body := by
    rw [List.length_append, hlen] at hdata
    push_cast at hdata
    omega
  refine ⟨by rw [hdata], fun i hi => ?_⟩
  rw [← hchildren]
  exact offsetAt_append_table (hchildren ▸ hroom) children hi

/-- The table pushes this container over the size up to which offsets take one byte, so they take two. -/
theorem putOffsets_lossless_two_bytes :
    let xs : List Nat := [3, 254]
    let data : List UInt8 := List.replicate 254 7 ++ [3, 0, 254, 0]
    xs ≠ [] ∧ (∀ x ∈ xs, x ≤ 254) ∧ containerSize (254 : Nat) xs.length = 258 ∧
      IsLeast {v | v ∈ [1, 2, 4, 8] ∧ 254 + xs.length * v ≤ 2 ^ (8 * v) - 1} 2 ∧
      (∃ caps, putOffsets (xs.map Int.ofNat) (254 : Nat) ⟨#[7], []⟩ = .ok () ⟨#[7, 3, 0, 254, 0], caps⟩) ∧
      offsetAt data.toArray 254 2 = .ok 3 ∧ offsetAt data.toArray 256 2 = .ok 254 := by
  intro xs data
  have hne : xs ≠ [] := List.cons_ne_nil _ _
  have hxs : ∀ x ∈ xs, x ≤ 254 := by decide
  have hsize : containerSize (254 : Nat) xs.length = 258 := rfl
  obtain ⟨w, hw, -, hleast, -, hput, hread⟩ := putOffsets_lossless hne hxs (by rw [hsize]; decide)
  obtain rfl : w = 2 := hw.symm
  have hlen : data.length = 258 := by rw [List.length_append, List.length_replicate]; rfl
  obtain ⟨-, hread⟩ := hread data (by rw [hlen, hsize]; rfl) ⟨List.replicate 254 7, rfl⟩
  refine ⟨hne, hxs, hsize, hleast, ?_, hread 0 (by decide), hread 1 (by decide)⟩
  exact (hput ⟨#[7], []⟩).resolve_right fun ⟨limit, hlimit, _⟩ => List.not_mem_nil hlimit

end Marshal.Framing
