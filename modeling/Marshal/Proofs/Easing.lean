import Marshal.Proofs.Metering
import Marshal.Proofs.Runs
import Marshal.Proofs.Scalars
/-!
# Behind a greater cap

A cap only refuses, and it refuses less the more it has left. So a step that succeeds gives the same when the cap before
it is raised or taken away, whatever number the cap was. `Cap.Eased` relates what stands before two runs, and every
primitive writer and reader follows itself under it.
-/
namespace Marshal

namespace Cap

/-- Whether a cap, no cap being the greatest, is at least another one. -/
def Within (cap cap' : Option Int) : Prop := ∀ n' ∈ cap', ∃ n ∈ cap, n ≤ n'

/-- Whether what stands before a second run lets as much pass as what stands before a first. It is one cap at most. -/
inductive Eased : List Cap → List Cap → Prop
  | free : Eased [] []
  | raised {c c' : Cap} (h : c.left ≤ c'.left) : Eased [c] [c']
  | lifted (c : Cap) : Eased [c] []

theorem eased_new {cap cap' : Option Int} (h : Within cap cap') :
    Eased (cap.toList.map new) (cap'.toList.map new) := by
  cases cap' with
  | none =>
    cases cap with
    | none => exact .free
    | some n => exact .lifted _
  | some n' =>
    obtain ⟨n, rfl, hle⟩ := h n' rfl
    exact .raised hle

theorem eased_chargeAll {n : Int} {cs cs' ds : List Cap} (h : Eased cs cs') (hc : chargeAll n cs = (none, ds)) :
    ∃ ds', chargeAll n cs' = (none, ds') ∧ Eased ds ds' := by
  cases h with
  | free =>
    cases hc
    exact ⟨[], rfl, .free⟩
  | @raised c c' hle =>
    rw [chargeAll_singleton] at hc ⊢
    split at hc
    · cases hc
    · cases hc
      exact ⟨_, by rw [if_neg (by omega)], .raised (sub_le_sub_right hle n)⟩
  | lifted c =>
    rw [chargeAll_singleton] at hc
    cases (Prod.mk.inj hc).2
    exact ⟨[], rfl, .lifted _⟩

end Cap

variable {α β : Type}

/-! ## Writers -/

/-- Whether the same was written behind eased caps. -/
inductive Sink.Eased : Sink → Sink → Prop
  | mk (bytes : Array UInt8) {caps caps' : List Cap} (h : Cap.Eased caps caps') : Eased ⟨bytes, caps⟩ ⟨bytes, caps'⟩

namespace Put

/-- **A writer that succeeds does the same behind eased caps.** -/
theorem Composed.follows {put : Put α} (h : Composed 0 put) : Follows Sink.Eased put put := by
  induction h with
  | pure a => exact follows_pure a
  | throw he => exact follows_throw
  | position h ih =>
    rintro _ _ a t ⟨bytes, hcaps⟩ hr
    exact ih bytes.size (Nat.zero_le _) ⟨bytes, hcaps⟩ hr
  | writeBytes bs =>
    rintro _ _ a t ⟨bytes, hcaps⟩ hr
    rw [writeBytes_apply] at hr
    split at hr
    · rename_i ds hc
      cases hr
      obtain ⟨ds', hc', hds⟩ := Cap.eased_chargeAll hcaps hc
      exact ⟨⟨bytes ++ bs, ds'⟩, by rw [writeBytes_apply, hc'], ⟨_, hds⟩⟩
    · cases hr
  | overwrite hp bs =>
    rintro _ _ a t ⟨bytes, hcaps⟩ hr
    rw [Put.overwrite] at hr ⊢
    split at hr
    · cases hr
    · rename_i hin
      cases hr
      exact ⟨_, if_neg hin, ⟨_, hcaps⟩⟩
  | bind h h' ih ih' => exact ih.bind ih'

theorem congruence_eased : Congruence fun _ x y => Follows Sink.Eased x y := ⟨Composed.follows, Follows.bind⟩

theorem run_of_follows {put put' : Put Unit} {cap cap' : Option Int} {b : Array UInt8}
    (h : Follows Sink.Eased put put') (hcap : Cap.Within cap cap') (hr : run put cap = .ok b) :
    run put' cap' = .ok b := by
  obtain ⟨s, hs, rfl⟩ := run_eq_ok_iff.1 hr
  obtain ⟨s', hs', ⟨bytes, -⟩⟩ := h ⟨#[], Cap.eased_new hcap⟩ hs
  exact run_eq_ok_iff.2 ⟨_, hs', rfl⟩

end Put

/-! ## Readers -/

/-- Whether the same is left to read behind eased caps. -/
inductive Source.Eased : Source → Source → Prop
  | mk (position : Int) (rest : List UInt8) {caps caps' : List Cap} (h : Cap.Eased caps caps') :
    Eased ⟨position, rest, caps⟩ ⟨position, rest, caps'⟩

namespace Get

variable {get get' : Get α}

theorem follows_fail {d : DecodeError} : Follows Source.Eased (fail d : Get α) get' := follows_throw

theorem follows_fail_bind {d : DecodeError} {next : α → Get β} {get' : Get β} :
    Follows Source.Eased ((fail d : Get α) >>= next) get' := follows_fail

theorem follows_ofExcept {r r' : Except Error α} (h : ∀ a, r = .ok a → r' = .ok a) :
    Follows Source.Eased (ofExcept r) (ofExcept r') := by
  cases r with
  | error e => exact follows_throw
  | ok a =>
    rw [h a rfl]
    exact follows_pure a

/-- A look at what is left, and not at the caps. -/
theorem follows_look {f : Int → List UInt8 → α} :
    Follows Source.Eased (fun s => .ok (f s.position s.rest) s : Get α) fun s => .ok (f s.position s.rest) s := by
  rintro _ _ a t ⟨p, rest, hcaps⟩ hr
  cases hr
  exact ⟨_, rfl, p, rest, hcaps⟩

theorem follows_position : Follows Source.Eased position position := follows_look (f := fun p _ => p)

theorem follows_remaining : Follows Source.Eased remaining remaining := follows_look (f := fun _ rest => rest.length)

theorem follows_has (n : Nat) : Follows Source.Eased (has n) (has n) :=
  follows_look (f := fun _ rest => (rest.take n).length == n)

theorem follows_charge (n : Int) : Follows Source.Eased (charge n) (charge n) := by
  rintro _ _ a t ⟨p, rest, hcaps⟩ hr
  rw [charge] at hr
  split at hr
  · rename_i ds hc
    cases hr
    obtain ⟨ds', hc', hds⟩ := Cap.eased_chargeAll hcaps hc
    exact ⟨⟨p, rest, ds'⟩, by rw [charge, hc'], p, rest, hds⟩
  · cases hr

theorem TakesBytes.follows {take : Get α} {n : Int} (h : TakesBytes take n) : Follows Source.Eased take take := by
  rintro _ _ a t ⟨p, rest, hcaps⟩ hr
  obtain ⟨rfl, -, -, htake⟩ := h.ok hr
  exact ⟨_, htake _, _, _, hcaps⟩

theorem follows_readByte : Follows Source.Eased readByte readByte :=
  (follows_charge 1).bind fun _ => takesBytes_takeByte.follows

theorem follows_readBytes (n : Int) : Follows Source.Eased (readBytes n true) (readBytes n true) :=
  (follows_charge n).bind fun _ => (takesBytes_takeBytes n).follows

theorem follows_readAll : Follows Source.Eased readAll readAll := by
  rintro _ _ bs t ⟨p, rest, hcaps⟩ hr
  cases hcaps with
  | free =>
    cases hr
    exact ⟨_, rfl, _, _, .free⟩
  | @raised c c' hle =>
    obtain ⟨hlen, rfl, rfl⟩ := readAll_eq_ok hr
    exact ⟨_, readAll_of_le (hlen.trans hle), _, _, .raised (sub_le_sub_right hle _)⟩
  | lifted c =>
    obtain ⟨hlen, rfl, rfl⟩ := readAll_eq_ok hr
    exact ⟨_, rfl, _, _, .lifted _⟩

theorem follows_pad (a : Nat) : Follows Source.Eased (pad a) (pad a) := by
  refine follows_position.bind fun p => ?_
  simp only
  split
  · exact follows_pure ()
  · exact (follows_readBytes _).map

theorem follows_int (f : Integer.Format) : Follows Source.Eased (int f) (int f) := (follows_readBytes _).map

theorem follows_boolean (w : Nat) (o : ByteOrder) : Follows Source.Eased (boolean w o) (boolean w o) := by
  refine (follows_int _).bind fun n => ?_
  split
  · exact follows_pure _
  split
  · exact follows_pure _
  · exact follows_fail

theorem follows_double (o : ByteOrder) : Follows Source.Eased (double o) (double o) := (follows_readBytes _).map

theorem follows_chars (w : Nat) (o : ByteOrder) : Follows Source.Eased (chars w o) (chars w o) := by
  unfold chars
  by_cases hw : w = 0
  · simp only [if_pos hw]
    refine follows_readAll.bind fun bs => ?_
    split
    · exact follows_fail_bind
    · exact follows_ofExcept fun _ => id
  · simp only [if_neg hw]
    refine (follows_int _).bind fun n => (follows_readBytes n).bind fun bs => follows_readByte.bind fun b => ?_
    split
    · exact follows_fail_bind
    · exact follows_ofExcept fun _ => id

theorem follows_string (w : Nat) (o : ByteOrder) : Follows Source.Eased (string w o) (string w o) :=
  (follows_chars w o).map

theorem follows_objectPath (w : Nat) (o : ByteOrder) : Follows Source.Eased (objectPath w o) (objectPath w o) := by
  refine (follows_string w o).bind fun s => ?_
  split
  · exact follows_pure s
  · exact follows_fail

theorem follows_signature (prefixed : Bool) (format : Option WireFormat) :
    Follows Source.Eased (signature prefixed format) (signature prefixed format) := by
  refine follows_remaining.bind fun n => ?_
  simp only
  split
  · exact follows_fail_bind
  refine (follows_string _ .little).bind fun s => ?_
  cases Signature.parseAll { format } (Text.ofString s) with
  | error e => exact follows_fail
  | ok ts => exact follows_pure s

theorem run_of_follows (h : Follows Source.Eased get get') {s s' : Source} (hs : Source.Eased s s') {a : α}
    (hr : run get s = .ok a) : run get' s' = .ok a := by
  obtain ⟨t, ht, h0⟩ := run_eq_ok.1 hr
  obtain ⟨t', ht', ⟨p, rest, -⟩⟩ := h hs ht
  exact run_eq_ok.2 ⟨_, ht', h0⟩

end Get

end Marshal
