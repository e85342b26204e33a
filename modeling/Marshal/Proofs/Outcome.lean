import Mathlib.Tactic
import Marshal.Proofs.Nesting
import Marshal.Proofs.Scalars
/-!
# How reading ends

Bytes from outside can be anything, so a reader is described by every way in which it can end. `Get.Ends` says that what
it gives has a property, and that it fails for a reason in `Rejection` only: the input is not valid, or longer than the
cap, or its type is one that the format does not have. Nothing else is expected of a reader, so the description is
closed under everything that readers are built from, and each reader needs one lemma.

What the readers rely on is that caps are intact: none has refused yet, for a cap that has let too much pass counts
what is left of it in negative numbers, which no reader can ask for.
-/
namespace Marshal

/-- The reasons to refuse an input: it is not valid, it is over the cap, or, where `maybe` holds, there is a maybe type in
a format without them. -/
inductive Rejection (cap : Option Int) (maybe : Prop) : Error → Prop
  | invalid (d : DecodeError) : Rejection cap maybe (.decode d)
  | overCap {n : Int} (h : n ∈ cap) : Rejection cap maybe (.inputOverCap n)
  | unsupported (h : maybe) : Rejection cap maybe .maybeUnsupported

namespace Cap

/-- Whether no cap has refused, and each has the given limit. -/
def Intact (cap : Option Int) (caps : List Cap) : Prop := ∀ c ∈ caps, 0 ≤ c.left ∧ c.limit ∈ cap

theorem intact_of_chargeAll {cap : Option Int} {n : Int} :
    ∀ {caps caps' : List Cap}, Intact cap caps → chargeAll n caps = (none, caps') → Intact cap caps'
  | [], _, h, hc => by cases hc; exact h
  | c :: cs, caps', h, hc => by
    obtain ⟨h1, h2⟩ := List.forall_mem_cons.1 h
    obtain ⟨hleft, cs', hcs, rfl⟩ := none_of_chargeAll_cons hc
    exact List.forall_mem_cons.2 ⟨⟨sub_nonneg.2 hleft, h1.2⟩, intact_of_chargeAll h2 hcs⟩

theorem mem_of_chargeAll {cap : Option Int} {n limit : Int} {caps caps' : List Cap} (h : Intact cap caps)
    (hc : chargeAll n caps = (some limit, caps')) : limit ∈ cap := by
  obtain ⟨c, hmem, rfl⟩ := List.mem_map.1 (mem_limits_of_chargeAll hc)
  exact (h c hmem).2

end Cap

variable {cap : Option Int} {maybe : Prop} {α β : Type}

/-! ## Results -/

/-- Whether a result has a property, or is a reason to refuse the input. -/
structure Settles (cap : Option Int) (maybe : Prop) (r : Except Error α) (Q : α → Prop) : Prop where
  ok {a : α} : r = .ok a → Q a
  error {e : Error} : r = .error e → Rejection cap maybe e

theorem settles_ok {a : α} {Q : α → Prop} (h : Q a) : Settles cap maybe (.ok a) Q where
  ok ha := Except.ok.inj ha ▸ h
  error := nofun

theorem settles_error {e : Error} {Q : α → Prop} (h : Rejection cap maybe e) : Settles cap maybe (.error e) Q where
  ok := nofun
  error he := Except.error.inj he ▸ h

theorem Settles.mono {r : Except Error α} {Q R : α → Prop} (h : Settles cap maybe r Q) (hqr : ∀ a, Q a → R a) :
    Settles cap maybe r R := ⟨fun ha => hqr _ (h.ok ha), h.error⟩

theorem Settles.bind {r : Except Error α} {next : α → Except Error β} {Q : α → Prop} {R : β → Prop}
    (h : Settles cap maybe r Q) (hn : ∀ a, Q a → Settles cap maybe (next a) R) : Settles cap maybe (r >>= next) R := by
  cases r with
  | error e => exact settles_error (h.error rfl)
  | ok a => exact hn a (h.ok rfl)

theorem settles_mapError {r : Except DecodeError α} {Q : α → Prop} (h : ∀ a, r = .ok a → Q a) :
    Settles cap maybe (r.mapError .decode) Q := by
  cases r with
  | error d => exact settles_error (.invalid d)
  | ok a => exact settles_ok (h a rfl)

theorem settles_mapM {f : α → Except Error β} {Q : α → β → Prop} :
    ∀ {l : List α}, (∀ x ∈ l, Settles cap maybe (f x) (Q x)) → Settles cap maybe (l.mapM f) (List.Forall₂ Q l)
  | [], _ => by
    rw [List.mapM_nil]
    exact settles_ok .nil
  | x :: xs, h => by
    obtain ⟨h1, h2⟩ := List.forall_mem_cons.1 h
    rw [List.mapM_cons]
    exact h1.bind fun y hy => (settles_mapM h2).bind fun ys hys => settles_ok (.cons hy hys)

/-! ## Readers -/

namespace Get

/-- Whether a reader, as long as no cap has refused, gives what has a property or fails for a reason to refuse the
input. -/
structure Ends (cap : Option Int) (maybe : Prop) (get : Get α) (Q : α → Prop) : Prop where
  ok {s s' : Source} {a : α} : Cap.Intact cap s.caps → get s = .ok a s' → Q a ∧ Cap.Intact cap s'.caps
  error {s s' : Source} {e : Error} : Cap.Intact cap s.caps → get s = .error e s' → Rejection cap maybe e

variable {get : Get α} {next : α → Get β} {Q R : α → Prop}

theorem ends_pure {a : α} (h : Q a) : Ends cap maybe (pure a) Q where
  ok hs hr := by cases hr; exact ⟨h, hs⟩
  error _ hr := by cases hr

theorem ends_throw {e : Error} (h : Rejection cap maybe e) : Ends cap maybe (throw e : Get α) Q where
  ok _ hr := by cases hr
  error _ hr := by cases hr; exact h

theorem ends_fail {d : DecodeError} : Ends cap maybe (fail d : Get α) Q := ends_throw (.invalid d)

theorem Ends.bind {R : β → Prop} (h : Ends cap maybe get Q) (hn : ∀ a, Q a → Ends cap maybe (next a) R) :
    Ends cap maybe (get >>= next) R where
  ok hs hr := by
    obtain ⟨a, s₁, h1, h2⟩ := bind_eq_ok.1 hr
    obtain ⟨ha, hs₁⟩ := h.ok hs h1
    exact (hn a ha).ok hs₁ h2
  error hs hr := by
    rcases bind_eq_error.1 hr with h1 | ⟨a, s₁, h1, h2⟩
    · exact h.error hs h1
    · obtain ⟨ha, hs₁⟩ := h.ok hs h1
      exact (hn a ha).error hs₁ h2

theorem Ends.map {R : β → Prop} {f : α → β} (h : Ends cap maybe get Q) (hqr : ∀ a, Q a → R (f a)) :
    Ends cap maybe (get >>= fun a => pure (f a)) R := h.bind fun a ha => ends_pure (hqr a ha)

theorem ends_fail_bind {d : DecodeError} {R : β → Prop} : Ends cap maybe ((fail d : Get α) >>= next) R :=
  (ends_fail (Q := fun _ => False)).bind fun _ h => h.elim

theorem ends_ofExcept {r : Except Error α} (h : Settles cap maybe r Q) : Ends cap maybe (ofExcept r) Q := by
  cases r with
  | error e => exact ends_throw (h.error rfl)
  | ok a => exact ends_pure (h.ok rfl)

/-- A step that only looks at the source. -/
theorem ends_look {f : Source → α} : Ends cap maybe (fun s => .ok (f s) s) fun _ => True where
  ok hs hr := by cases hr; exact ⟨trivial, hs⟩
  error _ hr := by cases hr

theorem ends_position : Ends cap maybe position fun _ => True := ends_look

theorem ends_remaining : Ends cap maybe remaining fun _ => True := ends_look

theorem ends_has (n : Nat) : Ends cap maybe (has n) fun _ => True := ends_look

theorem ends_isEmpty : Ends cap maybe isEmpty fun _ => True := ends_look

theorem ends_charge (n : Int) : Ends cap maybe (charge n) fun _ => True where
  ok {s s' a} hs hr := by
    rw [charge] at hr
    split at hr
    · rename_i hc
      cases hr
      exact ⟨trivial, Cap.intact_of_chargeAll hs hc⟩
    · cases hr
  error {s s' e} hs hr := by
    rw [charge] at hr
    split at hr
    · cases hr
    · rename_i hc
      cases hr
      exact .overCap (Cap.mem_of_chargeAll hs hc)

theorem ends_wrap (h : ∀ n ∈ cap, 0 ≤ n) : Ends cap maybe (wrap cap) fun _ => True := by
  cases cap with
  | none => exact ends_look (f := fun _ => ())
  | some n =>
    constructor
    · intro s s' a hs hr
      cases hr
      exact ⟨trivial, List.forall_mem_cons.2 ⟨⟨h n rfl, rfl⟩, hs⟩⟩
    · intro s s' e _ hr
      cases hr

/-- Bytes that are asked for are as many as asked for, or fewer where that is allowed. -/
theorem ends_takeBytes {n : Int} (hn : 0 ≤ n) (exact : Bool) :
    Ends cap maybe (takeBytes n exact) fun bs => (bs.length : Int) ≤ n ∧ (exact = true → (bs.length : Int) = n) := by
  have hpeek : Ends cap maybe (peekBytes n exact) fun bs =>
      (bs.length : Int) ≤ n ∧ (exact = true → (bs.length : Int) = n) := by
    constructor
    · intro s s' bs hs hr
      rw [peekBytes, if_neg (not_lt.2 hn)] at hr
      simp only [Bool.and_eq_true, decide_eq_true_eq] at hr
      split at hr
      · cases hr
      rename_i hlen
      cases hr
      have hle : (s.rest.take n.toNat).length ≤ n.toNat := List.length_take_le ..
      exact ⟨⟨by omega, fun he => by have := not_lt.1 fun h => hlen ⟨he, h⟩; omega⟩, hs⟩
    · intro s s' e hs hr
      rw [peekBytes, if_neg (not_lt.2 hn)] at hr
      simp only at hr
      split at hr
      · cases hr
        exact .invalid _
      · cases hr
  have hadvance (k : Nat) : Ends cap maybe (advance k) fun _ => True :=
    ⟨fun hs hr => by cases hr; exact ⟨trivial, hs⟩, fun _ hr => by cases hr⟩
  exact hpeek.bind fun bs hbs => (hadvance _).bind fun _ _ => ends_pure hbs

theorem ends_readBytes {n : Int} (hn : 0 ≤ n) (exact : Bool) :
    Ends cap maybe (readBytes n exact) fun bs => (bs.length : Int) ≤ n ∧ (exact = true → (bs.length : Int) = n) :=
  (ends_charge n).bind fun _ _ => ends_takeBytes hn exact

theorem ends_readByte : Ends cap maybe readByte fun _ => True := by
  have htake : Ends cap maybe takeByte fun _ => True := by
    constructor
    · rintro ⟨p, rest, caps⟩ s' b hs hr
      cases rest with
      | nil => cases hr
      | cons x rest =>
        cases hr
        exact ⟨trivial, hs⟩
    · rintro ⟨p, rest, caps⟩ s' e hs hr
      cases rest with
      | nil =>
        cases hr
        exact .invalid _
      | cons x rest => cases hr
  exact (ends_charge 1).bind fun _ _ => htake

/-- Under a cap, what is left is read as far as the cap allows; that is where the cap has to be intact. -/
theorem ends_readAll : Ends cap maybe readAll fun _ => True := by
  have hbehind {c : Cap} (hc : 0 ≤ c.left ∧ c.limit ∈ cap) :
      Ends cap maybe (do
        let bs ← readBytes c.left false
        if ← isEmpty then return bs else throw (.inputOverCap c.limit)) fun bs => (bs.length : Int) ≤ c.left := by
    refine (ends_readBytes hc.1 false).bind fun bs hbs => ends_isEmpty.bind fun b _ => ?_
    cases b with
    | true => exact ends_pure hbs.1
    | false => exact ends_throw (.overCap hc.2)
  constructor
  · rintro ⟨p, rest, caps⟩ s' bs hs hr
    cases caps with
    | nil =>
      cases hr
      exact ⟨trivial, hs⟩
    | cons c cs =>
      obtain ⟨hc, hcs⟩ := List.forall_mem_cons.1 hs
      simp only [readAll, behindCap] at hr
      split at hr
      · rename_i as s₁ hget
        cases hr
        obtain ⟨hle, hs₁⟩ := (hbehind hc).ok (s := ⟨p, rest, cs⟩) hcs hget
        exact ⟨trivial, List.forall_mem_cons.2 ⟨⟨by simp only; omega, hc.2⟩, hs₁⟩⟩
      · cases hr
  · rintro ⟨p, rest, caps⟩ s' e hs hr
    cases caps with
    | nil => cases hr
    | cons c cs =>
      obtain ⟨hc, hcs⟩ := List.forall_mem_cons.1 hs
      simp only [readAll, behindCap] at hr
      split at hr
      · cases hr
      · rename_i e₁ s₁ hget
        cases hr
        exact (hbehind hc).error (s := ⟨p, rest, cs⟩) hcs hget

theorem ends_pad (a : Nat) : Ends cap maybe (pad a) fun _ => True := by
  refine ends_position.bind fun p _ => ?_
  simp only
  split
  · exact ends_pure trivial
  · exact (ends_readBytes (Int.natCast_nonneg _) true).map fun _ _ => trivial

/-- **A reader that is run on the whole of an input gives what it ends with**, or refuses what it left. -/
theorem Ends.run (h : Ends cap maybe get Q) {s : Source} (hs : Cap.Intact cap s.caps) :
    Settles cap maybe (Get.run get s) Q := by
  have hfinish : Ends cap maybe finish fun _ => True := by
    constructor
    · intro s s' a hs hr
      unfold finish at hr
      split at hr
      · cases hr
        exact ⟨trivial, hs⟩
      · cases hr
    · intro s s' e _ hr
      unfold finish at hr
      split at hr
      · cases hr
      · cases hr
        exact .invalid _
  have hall : Ends cap maybe (do let a ← get; finish; return a) Q :=
    h.bind fun a ha => hfinish.bind fun _ _ => ends_pure ha
  unfold Get.run
  cases hr : (do let a ← get; finish; return a : Get α) s with
  | ok a s' => exact settles_ok (hall.ok hs hr).1
  | error e s' => exact settles_error (hall.error hs hr)

/-! ## Scalars -/

variable {f : Integer.Format} {w : Nat} {o : ByteOrder}

theorem ends_int (hw : 0 < f.width) : Ends cap maybe (int f) fun n => Integer.Fits f.width f.signed n := by
  refine (ends_readBytes (Int.natCast_nonneg _) true).map fun bs hbs => ?_
  have hlen : bs.length = f.width := by exact_mod_cast hbs.2 rfl
  exact (Integer.encode?_eq_some_iff.1 (Integer.encode?_decode hw hlen)).1

theorem ends_boolean (hw : 0 < w) : Ends cap maybe (boolean w o) fun _ => True := by
  refine (ends_int hw).bind fun n _ => ?_
  split
  · exact ends_pure trivial
  split
  · exact ends_pure trivial
  · exact ends_fail

theorem ends_double : Ends cap maybe (double o) fun _ => True :=
  (ends_readBytes (by decide) true).map fun _ _ => trivial

theorem ends_chars (w : Nat) (o : ByteOrder) : Ends cap maybe (chars w o) fun cs => (0 : UInt8) ∉ Utf8.encode cs := by
  have hchars {bs : List UInt8} : Ends cap maybe (ofExcept ((charsOfBytes bs).mapError .decode))
      fun cs => (0 : UInt8) ∉ Utf8.encode cs := by
    refine ends_ofExcept (settles_mapError fun cs hcs => ?_)
    obtain ⟨h0, rfl⟩ := charsOfBytes_eq_ok.1 hcs
    exact h0
  unfold chars
  by_cases hw : w = 0
  · simp only [if_pos hw]
    refine ends_readAll.bind fun bs _ => ?_
    split
    · exact ends_fail_bind
    · exact hchars
  · simp only [if_neg hw]
    refine (ends_int (Nat.pos_of_ne_zero hw)).bind fun n hn => ?_
    refine (ends_readBytes hn.1 true).bind fun bs _ => ends_readByte.bind fun b _ => ?_
    split
    · exact ends_fail_bind
    · exact hchars

theorem ends_string (w : Nat) (o : ByteOrder) : Ends cap maybe (string w o) fun s => 0 ∉ Text.ofString s := by
  refine (ends_chars w o).map fun cs hcs => ?_
  rwa [zero_mem_ofString, String.toList_ofList]

theorem ends_objectPath (w : Nat) (o : ByteOrder) :
    Ends cap maybe (objectPath w o) fun s => 0 ∉ Text.ofString s ∧ ObjectPath.isValid (Text.ofString s) = true := by
  refine (ends_string w o).bind fun s hs => ?_
  split
  · rename_i hv
    exact ends_pure ⟨hs, hv⟩
  · exact ends_fail

/-- A signature that a format accepts is one. -/
theorem isValid_of_parseAll {format : Option WireFormat} {text : Text} {ts : List Ty}
    (h : Signature.parseAll { format } text = .ok ts) : Signature.isValid text = true := by
  obtain ⟨htext, hlen, hts⟩ := Signature.parseAll_eq_ok_iff.1 h
  have hall : Signature.parseAll {} text = .ok ts := by
    refine Signature.parseAll_eq_ok_iff.2 ⟨htext, hlen, fun t ht => ?_⟩
    obtain ⟨h1, h2, h3, h4, h5, -⟩ := hts t ht
    exact ⟨h1, h2, h3, h4, h5, nofun⟩
  rw [Signature.isValid, hall]
  rfl

theorem ends_signature (prefixed : Bool) (format : Option WireFormat) :
    Ends cap maybe (signature prefixed format)
      fun s => 0 ∉ Text.ofString s ∧ Signature.isValid (Text.ofString s) = true := by
  have hread : Ends cap maybe (signatureWithin (if prefixed then 1 else 0) format)
      fun s => 0 ∉ Text.ofString s ∧ Signature.isValid (Text.ofString s) = true := by
    refine (ends_string _ _).bind fun s hs => ?_
    cases hp : Signature.parseAll { format } (Text.ofString s) with
    | error e => exact ends_fail
    | ok ts => exact ends_pure ⟨hs, isValid_of_parseAll hp⟩
  constructor
  · intro s s' a hs hr
    rw [signature_apply] at hr
    split at hr
    · cases hr
    · exact hread.ok hs hr
  · intro s s' e hs hr
    rw [signature_apply] at hr
    split at hr
    · exact ends_fail.error (Q := fun _ => False) hs hr
    · exact hread.error hs hr

end Get

/-! ## Values -/

/-- What is promised of a value that was read: it is of its type, and well-formed. -/
structure Value.Conforms (t : Ty) (v : Value) : Prop where
  ty : v.ty = t
  isWellFormed : v.isWellFormed = true

/-- A scalar of a basic type, in range and valid. -/
structure Scalar.Conforms (b : Basic) (s : Scalar) : Prop where
  basic : s.basic = b
  isWellFormed : s.isWellFormed = true

theorem Scalar.conforms_int {k : IntKind} {n : Int} (h : Integer.Fits k.width k.isSigned n) :
    Conforms (.int k) (.int k n) := ⟨rfl, decide_eq_true h⟩

theorem Scalar.conforms_text {k : TextKind} {s : String} (h0 : 0 ∉ Text.ofString s)
    (h : k.admits (Text.ofString s) = true) : Conforms (.text k) (.text k s) :=
  ⟨rfl, by simp [Scalar.isWellFormed, h0, h]⟩

namespace Value

theorem tys_of_forall₂ {ts : List Ty} {vs : List Value} (h : List.Forall₂ (fun t v => v.ty = t) ts vs) :
    tys vs = ts := by
  induction h with
  | nil => rfl
  | cons h _ ih => rw [tys, h, ih]

theorem areWellFormed_of_forall₂ {ts : List Ty} {vs : List Value} (h : List.Forall₂ Conforms ts vs) :
    areWellFormed vs = true := by
  induction h with
  | nil => rfl
  | cons h _ ih => rw [areWellFormed, h.isWellFormed, ih]; rfl

theorem conforms_scalar {b : Basic} {s : Scalar} (h : s.Conforms b) : Conforms (.basic b) (.scalar s) :=
  ⟨congrArg Ty.basic h.basic, h.isWellFormed⟩

theorem conforms_array {t : Ty} {vs : List Value} (ht : (Ty.array t).isFormed = true) (h : ∀ v ∈ vs, Conforms t v) :
    Conforms (.array t) (.array t vs) := by
  refine ⟨rfl, ?_⟩
  rw [Value.isWellFormed, ht, areOf_iff.2 fun v hv => ⟨(h v hv).isWellFormed, (h v hv).ty⟩]
  rfl

theorem conforms_struct {ts : List Ty} {vs : List Value} (ht : (Ty.struct ts).isFormed = true)
    (h : List.Forall₂ Conforms ts vs) : Conforms (.struct ts) (.struct vs) := by
  have htys := tys_of_forall₂ (h.imp fun _ _ hv => hv.ty)
  refine ⟨by rw [Value.ty, htys], ?_⟩
  rw [Value.isWellFormed, htys, ht, areWellFormed_of_forall₂ h]
  rfl

theorem conforms_entry {k : Basic} {t : Ty} {s : Scalar} {v : Value} (ht : (Ty.entry k t).isFormed = true)
    (hs : s.Conforms k) (hv : v.Conforms t) : Conforms (.entry k t) (.entry s v) := by
  refine ⟨by rw [Value.ty, hs.basic, hv.ty], ?_⟩
  rw [Value.isWellFormed, hs.basic, hv.ty, ht, hs.isWellFormed, hv.isWellFormed]
  rfl

theorem conforms_variant {t : Ty} {v : Value} (he : t.isEntry = false) (hv : v.Conforms t) :
    Conforms .variant (.variant v) := by
  refine ⟨rfl, ?_⟩
  rw [Value.isWellFormed, hv.ty, he, hv.isWellFormed]
  rfl

theorem conforms_just {t : Ty} {v : Value} (ht : (Ty.maybe t).isFormed = true) (hv : v.Conforms t) :
    Conforms (.maybe t) (.just v) := by
  refine ⟨by rw [Value.ty, hv.ty], ?_⟩
  rw [Value.isWellFormed, hv.ty, ht, hv.isWellFormed]
  rfl

end Value

end Marshal
