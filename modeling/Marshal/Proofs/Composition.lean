import Marshal.Codec
import Marshal.Proofs.Steps
/-!
# What writers are made of

A writer is put together from a few steps: it asks for the position, it appends bytes, it writes over bytes that are
there, and it fails for a reason of its own. `Put.Composed` says so, and from where on a writer writes over bytes. So
what is true of each step and is handed on from one step to the next is true of every writer, whether it succeeds or
fails: what stood before it began is still there afterwards (`Composed.isPrefix`), and caps change nothing but that they
can refuse (`Composed.ok_of_capped`, `Composed.error_of_capped`).
-/
namespace Marshal

namespace Put

/-- A writer made of appending, of writing over bytes from `n` on, and of asking for the position, which is `n` or
later. -/
inductive Composed (n : Nat) : {α : Type} → Put α → Prop
  | pure {α : Type} (a : α) : Composed n (pure a)
  /-- A writer leaves it to the caps to refuse what is over a cap. -/
  | throw {α : Type} {e : Error} (h : ∀ limit, e ≠ .outputOverCap limit) : Composed n (throw e : Put α)
  | position {α : Type} {next : Nat → Put α} (h : ∀ p, n ≤ p → Composed n (next p)) : Composed n (Put.position >>= next)
  | writeBytes (bs : List UInt8) : Composed n (writeBytes bs)
  | overwrite {p : Int} (h : n ≤ p) (bs : List UInt8) : Composed n (overwrite p bs)
  | bind {α β : Type} {put : Put α} {next : α → Put β} (h : Composed n put) (h' : ∀ a, Composed n (next a)) :
    Composed n (put >>= next)

variable {α β : Type} {n : Nat} {put : Put α} {bytes : Array UInt8} {caps : List Cap} {s s' : Sink}

/-! ## What was written before -/

/-- The sink that a writer has reached, whether it succeeded or failed. -/
def reached : EStateM.Result Error Sink α → Sink
  | .ok _ s | .error _ s => s

theorem reached_bind {next : α → Put β} (s : Sink) :
    reached ((put >>= next) s) =
      match put s with
      | .ok a s => reached (next a s)
      | .error _ s => s := by
  change reached (EStateM.bind put next s) = _
  unfold EStateM.bind
  cases put s <;> rfl

theorem size_append (bytes : Array UInt8) (bs : List UInt8) : (bytes ++ bs).size = bytes.size + bs.length := by
  rw [← Array.length_toList, Array.toList_appendList, List.length_append, Array.length_toList]

theorem take_toList_setFrom (bs : List UInt8) : ∀ {bytes : Array UInt8} {i : Nat}, n ≤ i →
    (setFrom bytes i bs).toList.take n = bytes.toList.take n := by
  induction bs with
  | nil => exact fun _ => rfl
  | cons b bs ih =>
    intro bytes i hi
    rw [setFrom, ih (by omega), Array.toList_setIfInBounds, List.take_set_of_le hi]

theorem size_setFrom : ∀ (bytes : Array UInt8) (i : Nat) (bs : List UInt8), (setFrom bytes i bs).size = bytes.size
  | _, _, [] => rfl
  | bytes, i, b :: bs => by
    rw [setFrom, size_setFrom _ _ bs, Array.size_setIfInBounds]

/-- A writer leaves the bytes alone that it does not write over, also when it fails. -/
theorem Composed.take_reached (h : Composed n put) : ∀ {s : Sink}, n ≤ s.bytes.size →
    n ≤ (reached (put s)).bytes.size ∧ (reached (put s)).bytes.toList.take n = s.bytes.toList.take n := by
  induction h with
  | pure a | throw he => exact fun hs => ⟨hs, rfl⟩
  | position h ih => exact fun hs => ih _ hs hs
  | writeBytes bs =>
    rintro ⟨bytes, caps⟩ hs
    rw [writeBytes_apply]
    rcases Cap.chargeAll bs.length caps with ⟨_ | limit, caps⟩
    · refine ⟨hs.trans (Nat.le.intro (size_append bytes bs).symm), ?_⟩
      rw [reached, Array.toList_appendList, List.take_append_of_le_length (by rwa [Array.length_toList])]
    · exact ⟨hs, rfl⟩
  | overwrite hp bs =>
    rintro ⟨bytes, caps⟩ hs
    rw [Put.overwrite]
    split
    · exact ⟨hs, rfl⟩
    · exact ⟨(size_setFrom ..).symm ▸ hs, take_toList_setFrom bs (by omega)⟩
  | @bind _ _ put next h h' ih ih' =>
    intro s hs
    have hput := ih hs
    rw [reached_bind]
    cases hr : put s with
    | error e s₁ => rwa [hr] at hput
    | ok a s₁ =>
      rw [hr] at hput
      obtain ⟨h1, h2⟩ := ih' a hput.1
      exact ⟨h1, h2.trans hput.2⟩

/-- **What stood before a writer began is still there afterwards**, also when the writer failed. -/
theorem Composed.isPrefix (h : Composed s.bytes.size put) : s.bytes.toList <+: (reached (put s)).bytes.toList := by
  have htake := (h.take_reached (s := s) le_rfl).2
  rw [← Array.length_toList, List.take_length] at htake
  rw [← htake]
  exact List.take_prefix _ _

/-! ## Behind caps -/

/-- A writer that succeeds behind caps does the same without them. -/
theorem Composed.ok_of_capped (h : Composed 0 put) : ∀ {bytes : Array UInt8} {caps : List Cap} {a : α} {s' : Sink},
    put ⟨bytes, caps⟩ = .ok a s' →
      put ⟨bytes, []⟩ = .ok a ⟨s'.bytes, []⟩ ∧ s'.caps.map Cap.limit = caps.map Cap.limit := by
  induction h with
  | pure a =>
    intro bytes caps a s' hr
    cases hr
    exact ⟨rfl, rfl⟩
  | throw he => exact nofun
  | position h ih => exact fun hr => ih _ (Nat.zero_le _) hr
  | writeBytes bs =>
    intro bytes caps a s' hr
    rw [writeBytes_apply] at hr
    split at hr
    · rename_i caps' hc
      cases hr
      exact ⟨rfl, Cap.lower_of_chargeAll hc ▸ Cap.map_limit_lower _ caps⟩
    · cases hr
  | overwrite hp bs =>
    intro bytes caps a s' hr
    rw [Put.overwrite] at hr ⊢
    split at hr
    · cases hr
    · rename_i hin
      cases hr
      exact ⟨if_neg hin, rfl⟩
  | @bind _ _ put next h h' ih ih' =>
    intro bytes caps b s' hr
    obtain ⟨a, s₁, h1, h2⟩ := bind_eq_ok.1 hr
    obtain ⟨h3, h4⟩ := ih h1
    obtain ⟨h5, h6⟩ := ih' a h2
    exact ⟨bind_eq_ok.2 ⟨a, _, h3, h5⟩, h6.trans h4⟩

/-- A writer that fails behind caps fails in the same way without them, or one of them has refused. -/
theorem Composed.error_of_capped (h : Composed 0 put) : ∀ {bytes : Array UInt8} {caps : List Cap} {e : Error}
    {s' : Sink}, put ⟨bytes, caps⟩ = .error e s' →
      put ⟨bytes, []⟩ = .error e ⟨s'.bytes, []⟩ ∨ ∃ limit ∈ caps.map Cap.limit, e = .outputOverCap limit := by
  induction h with
  | pure a => exact nofun
  | throw he =>
    intro bytes caps e s' hr
    cases hr
    exact .inl rfl
  | position h ih => exact fun hr => ih _ (Nat.zero_le _) hr
  | writeBytes bs =>
    intro bytes caps e s' hr
    rw [writeBytes_apply] at hr
    split at hr
    · cases hr
    · rename_i limit caps' hc
      cases hr
      exact .inr ⟨limit, Cap.mem_limits_of_chargeAll hc, rfl⟩
  | overwrite hp bs =>
    intro bytes caps e s' hr
    rw [Put.overwrite] at hr ⊢
    split at hr
    · rename_i hout
      cases hr
      exact .inl (if_pos hout)
    · cases hr
  | @bind _ _ put next h h' ih ih' =>
    intro bytes caps e s' hr
    rcases bind_eq_error.1 hr with h1 | ⟨a, s₁, h1, h2⟩
    · exact (ih h1).imp_left fun h3 => bind_eq_error.2 (.inl h3)
    · obtain ⟨h3, h4⟩ := h.ok_of_capped h1
      rw [← h4]
      exact (ih' a h2).imp_left fun h5 => bind_eq_error.2 (.inr ⟨a, _, h3, h5⟩)

/-! ## Runs -/

theorem wrap_bind_apply (put : Put α) (cap : Option Int) :
    (do wrap cap; put : Put α) {} = put { caps := cap.toList.map Cap.new } := by cases cap <;> rfl

theorem run_eq_ok_iff {put : Put Unit} {cap : Option Int} {b : Array UInt8} : run put cap = .ok b ↔
    ∃ s, put { caps := cap.toList.map Cap.new } = .ok () s ∧ s.bytes = b := by
  rw [run, wrap_bind_apply]
  cases put { caps := cap.toList.map Cap.new } <;> simp

theorem run_eq_error_iff {put : Put Unit} {cap : Option Int} {e : Error} : run put cap = .error e ↔
    ∃ s, put { caps := cap.toList.map Cap.new } = .error e s := by
  rw [run, wrap_bind_apply]
  cases put { caps := cap.toList.map Cap.new } <;> simp

/-! ## Every writer -/

theorem composed_writeByte {k : Nat} (hk : k < 256) : Composed n (writeByte k) := by
  rw [writeByte_eq hk]
  exact .writeBytes _

theorem composed_forEach {put : α → Put Unit} : ∀ xs : List α, (∀ x ∈ xs, Composed n (put x)) →
    Composed n (forEach put xs)
  | [], _ => .pure ()
  | x :: xs, h => by
    obtain ⟨h1, h2⟩ := List.forall_mem_cons.1 h
    exact h1.bind fun _ => composed_forEach xs h2

theorem composed_pad (a : Nat) : Composed n (pad a) := by
  refine .position fun p _ => ?_
  simp only
  split
  · exact .pure ()
  · exact .writeBytes _

theorem composed_int (f : Integer.Format) (k : Int) : Composed n (int f k) := by
  unfold int
  split
  · exact .writeBytes _
  · exact .throw nofun

theorem composed_chars (w : Nat) (o : ByteOrder) (cs : List Char) : Composed n (chars w o cs) := by
  have hend : Composed n (do writeBytes (Utf8.encode cs); writeByte 0) :=
    (Composed.writeBytes _).bind fun _ => composed_writeByte (k := 0) (by decide)
  unfold chars
  simp only
  split
  · exact hend
  · exact (composed_int _ _).bind fun _ => hend

theorem composed_text (w : Nat) (o : ByteOrder) (t : Text) : Composed n (text w o t) := by
  unfold text
  split
  · exact composed_chars _ _ _
  · exact .throw nofun

theorem composed_signature (prefixed : Bool) (t : Text) : Composed n (signature prefixed t) := by
  unfold signature
  split
  · exact .throw nofun
  · exact composed_text _ _ _

end Put

namespace Dbus

open Put

variable {n : Nat} {c : Codec}

theorem composed_putScalar (o : ByteOrder) (s : Scalar) : Composed n (putScalar o s) := by
  cases s with
  | int k m => exact composed_int _ m
  | boolean b => exact composed_int _ _
  | double bits => exact .writeBytes _
  | text k s =>
    cases k with
    | string | objectPath => exact composed_chars lengthWidth o s.toList
    | signature =>
      unfold putScalar
      dsimp only
      cases Signature.parseAll { format := some .dbus } (Text.ofString s) with
      | ok ts => exact composed_signature true _
      | error e => exact .throw nofun

theorem composed_putAlignment (t : Ty) : Composed n (putAlignment t) := by
  unfold putAlignment alignment
  cases t.dbusAlignment? with
  | some a => exact .pure a
  | none => exact .throw nofun

/-- An array writes over the place of its length, which is where it starts. -/
theorem composed_putArray {put : Value → Put Unit} (element : Ty) {items : List Value}
    (h : ∀ v ∈ items, Composed n (put v)) : Composed n (putArray c put element items) := by
  refine (composed_putAlignment element).bind fun a => .position fun l hl => ?_
  refine (composed_int _ 0).bind fun _ => (composed_pad a).bind fun _ => .position fun start _ => ?_
  refine (composed_forEach items h).bind fun _ => .position fun stop _ => ?_
  simp only
  split
  · exact .throw nofun
  split
  · exact .overwrite (by exact_mod_cast hl) _
  · exact .throw nofun

theorem composed_put (n : Nat) (c : Codec) : ∀ (room : Nat) (v : Value), Composed n (put c room v)
  | 0, _ => .throw nofun
  | room + 1, v => by
    refine (composed_putAlignment v.ty).bind fun a => (composed_pad a).bind fun _ => ?_
    cases v with
    | scalar s => exact composed_putScalar c.order s
    | array t items => exact composed_putArray t fun v _ => composed_put n c room v
    | struct members => exact composed_forEach members fun v _ => composed_put n c room v
    | entry k v => exact (composed_put n c room (.scalar k)).bind fun _ => composed_put n c room v
    | variant v => exact (composed_signature true _).bind fun _ => composed_put n c room v
    | nothing t => exact .throw nofun
    | just v => exact .throw nofun

end Dbus

namespace Framing

open Put

variable {α : Type} {n : Nat} {put : α → Put Unit}

theorem composed_putOffsets (offsets : List Int) (body : Int) : Composed n (putOffsets offsets body) := by
  refine composed_forEach offsets fun offset _ => ?_
  unfold putOffset
  split
  · exact .throw nofun
  split
  · exact .writeBytes _
  · exact .throw nofun

theorem composed_putElements (alignment start : Nat) : ∀ (ends : List Int) (items : List α),
    (∀ x ∈ items, Composed n (put x)) → Composed n (putElements put alignment start ends items)
  | ends, [], _ => .pure _
  | ends, x :: items, h => by
    obtain ⟨h1, h2⟩ := List.forall_mem_cons.1 h
    refine (composed_pad alignment).bind fun _ => h1.bind fun _ => ?_
    exact (Composed.position fun _ _ => .pure _).bind fun stop => composed_putElements alignment start _ items h2

theorem composed_putCollection (l : Layout) {items : List α} (h : ∀ x ∈ items, Composed n (put x)) :
    Composed n (putCollection put l items) :=
  .position fun start _ => (composed_putElements l.alignment start [] items h).bind fun _ =>
    (Composed.position fun _ _ => .pure _).bind fun _ => composed_putOffsets _ _

theorem composed_putMembers (start : Nat) : ∀ members : List (Layout × α), (∀ m ∈ members, Composed n (put m.2)) →
    Composed n (putMembers put start members)
  | [], _ => .pure _
  | (l, x) :: members, h => by
    obtain ⟨h1, h2⟩ := List.forall_mem_cons.1 h
    refine (composed_pad l.alignment).bind fun _ => h1.bind fun _ => ?_
    exact (Composed.position fun _ _ => .pure _).bind fun stop =>
      (composed_putMembers start members h2).bind fun _ => .pure _

theorem composed_putTuple (alignment : Nat) {members : List (Layout × α)} (h : ∀ m ∈ members, Composed n (put m.2)) :
    Composed n (putTuple put alignment members) := by
  refine .position fun start _ => (composed_putMembers start members h).bind fun ends => ?_
  refine (Composed.position fun _ _ => .pure _).bind fun stop => ?_
  split
  · exact composed_pad alignment
  · exact composed_putOffsets _ _

end Framing

namespace Gvariant

open Put Framing

variable {n : Nat}

theorem composed_putScalar (o : ByteOrder) (s : Scalar) : Composed n (putScalar o s) := by
  cases s with
  | int k m => exact composed_int _ m
  | boolean b => exact composed_int _ _
  | double bits => exact .writeBytes _
  | text k s =>
    cases k with
    | string | objectPath => exact composed_chars 0 o s.toList
    | signature => exact composed_signature false (Text.ofString s)

theorem composed_put (n : Nat) (c : Codec) : ∀ (room : Nat) (v : Value), Composed n (put c room v)
  | 0, _ => .throw nofun
  | room + 1, v => by
    refine (composed_pad _).bind fun _ => ?_
    have hmembers (vs : List Value) : ∀ m ∈ laidOut vs, Composed n (put c room m.2) :=
      fun m _ => composed_put n c room m.2
    cases v with
    | scalar s => exact composed_putScalar c.order s
    | array t items => exact composed_putCollection _ fun v _ => composed_put n c room v
    | struct members => exact composed_putTuple _ (hmembers members)
    | entry k w => exact composed_putTuple _ (hmembers [.scalar k, w])
    | variant w =>
      exact (composed_put n c room w).bind fun _ => (composed_writeByte (k := 0) (by decide)).bind fun _ =>
        .writeBytes _
    | nothing t => exact .pure ()
    | just w =>
      refine (composed_put n c room w).bind fun _ => ?_
      split
      · exact .pure ()
      · exact composed_writeByte (k := 0) (by decide)

end Gvariant

/-- **Whole values are written by composed writers.** -/
theorem Codec.composed_put (n : Nat) (c : Codec) (v : Value) : Put.Composed n (c.put v) := by
  unfold put
  split
  · exact Dbus.composed_put n c c.room v
  · exact Gvariant.composed_put n c c.room v

end Marshal
