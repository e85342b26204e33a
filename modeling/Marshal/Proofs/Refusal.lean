import Marshal.Proofs.Narrowing
/-!
# What becomes of an encoded value

A decoder that is given what an encoder wrote finds nothing wrong with it but, possibly, the signature of what a variant
holds: the encoder does not ask for all that the decoder does. `Answers` says so of a result, and says of which
signatures: it is the value if the type of everything that its variants hold is read back from its signature, and
otherwise the error of one that is not. `Get.Gives` says so of a reader, as `Get.Reads` does of one that refuses
nothing.
-/
namespace Marshal

variable {α β : Type} {read : Ty → Except DecodeError Ty} {ts us : List Ty}

/-- Whether a result is a value, where all the given types are read back from their signatures, or the error of one that
is not. -/
inductive Answers (read : Ty → Except DecodeError Ty) (ts : List Ty) (a : α) : Except Error α → Prop
  | gives (h : ∀ t ∈ ts, read t = .ok t) : Answers read ts a (.ok a)
  | refuses {t : Ty} {d : DecodeError} (ht : t ∈ ts) (hd : read t = .error d) : Answers read ts a (.error (.decode d))

theorem answers_ok (a : α) : Answers read [] a (.ok a) := .gives (List.forall_mem_nil _)

theorem Answers.bind {r : Except Error α} {next : α → Except Error β} {a : α} {b : β} (h : Answers read ts a r)
    (hn : Answers read us b (next a)) : Answers read (ts ++ us) b (r >>= next) := by
  cases h with
  | refuses ht hd => exact .refuses (List.mem_append_left us ht) hd
  | gives hts =>
    change Answers read (ts ++ us) b (next a)
    generalize next a = r at hn ⊢
    cases hn with
    | gives hus => exact .gives (List.forall_mem_append.2 ⟨hts, hus⟩)
    | refuses ht hd => exact .refuses (List.mem_append_right ts ht) hd

theorem Answers.map {r : Except Error α} {f : α → β} {a : α} (h : Answers read ts a r) :
    Answers read ts (f a) (r.map f) := by
  cases h with
  | gives hts => exact .gives hts
  | refuses ht hd => exact .refuses ht hd

theorem Answers.cons {r : Except Error α} {a : α} {t : Ty} (ht : read t = .ok t) (h : Answers read ts a r) :
    Answers read (t :: ts) a r := by
  cases h with
  | gives hts => exact .gives (List.forall_mem_cons.2 ⟨ht, hts⟩)
  | refuses hmem hd => exact .refuses (List.mem_cons_of_mem t hmem) hd

theorem Answers.ok {r : Except Error α} {a b : α} (h : Answers read ts a r) (hr : r = .ok b) :
    b = a ∧ ∀ t ∈ ts, read t = .ok t := by
  cases h with
  | gives hts => exact ⟨(Except.ok.inj hr).symm, hts⟩
  | refuses ht hd => cases hr

theorem Answers.error {r : Except Error α} {a : α} {e : Error} (h : Answers read ts a r) (hr : r = .error e) :
    ∃ t ∈ ts, ∃ d, read t = .error d ∧ e = .decode d := by
  cases h with
  | gives hts => cases hr
  | refuses ht hd =>
    cases hr
    exact ⟨_, ht, _, hd, rfl⟩

/-- The value is the result exactly where all the types are read back. -/
theorem Answers.eq_ok_iff {r : Except Error α} {a : α} (h : Answers read ts a r) :
    r = .ok a ↔ ∀ t ∈ ts, read t = .ok t := by
  refine ⟨fun hr => (h.ok hr).2, fun hts => ?_⟩
  cases h with
  | gives => rfl
  | refuses ht hd =>
    rw [hts _ ht] at hd
    cases hd

theorem answers_mapM {f : α → Except Error Value} : ∀ {l : List α} {vs : List Value},
    List.Forall₂ (fun x v => Answers read v.heldTypes v (f x)) l vs →
      Answers read (Value.heldTypesOf vs) vs (l.mapM f)
  | [], [], _ => by
    rw [List.mapM_nil]
    exact answers_ok []
  | x :: l, v :: vs, h => by
    obtain ⟨h1, h2⟩ := List.forall₂_cons.1 h
    have hrest : Answers read (Value.heldTypesOf vs ++ []) (v :: vs) (do pure (v :: (← l.mapM f))) :=
      (answers_mapM h2).bind (answers_ok _)
    rw [List.append_nil] at hrest
    rw [List.mapM_cons]
    exact h1.bind hrest

/-! ## Readers -/

namespace Get

variable {get : Get α} {next : α → Get β} {p : Int} {as bs : List UInt8} {a : α} {b : β}

/-- What a reader makes of the bytes from a position on, whatever follows. -/
def Gives (read : Ty → Except DecodeError Ty) (ts : List Ty) (get : Get α) (p : Int) (bs : List UInt8) (a : α) : Prop :=
  ∀ rest, Answers read ts (a, (⟨p + bs.length, rest, []⟩ : Source)) (outcome get ⟨p, bs ++ rest, []⟩)

theorem Reads.gives (h : Reads get p bs a) : Gives read [] get p bs a := fun rest => by
  rw [outcome_eq_ok.2 (h rest)]
  exact answers_ok _

theorem Gives.reads (h : Gives read ts get p bs a) (hts : ∀ t ∈ ts, read t = .ok t) : Reads get p bs a := fun rest =>
  outcome_eq_ok.1 ((h rest).eq_ok_iff.2 hts)

theorem Gives.bind (h : Gives read ts get p as a) (hn : Gives read us (next a) (p + as.length) bs b) :
    Gives read (ts ++ us) (get >>= next) p (as ++ bs) b := by
  intro rest
  rw [outcome_bind, List.append_assoc, List.length_append, Nat.cast_add, ← add_assoc]
  exact (h (bs ++ rest)).bind (hn rest)

theorem Reads.bind_gives (h : Reads get p as a) (hn : Gives read us (next a) (p + as.length) bs b) :
    Gives read us (get >>= next) p (as ++ bs) b := h.gives.bind hn

theorem Gives.bind_nil (h : Gives read ts get p bs a) (hn : Reads (next a) (p + bs.length) [] b) :
    Gives read ts (get >>= next) p bs b := by
  have hall : Gives read (ts ++ []) (get >>= next) p (bs ++ []) b := h.bind hn.gives
  rwa [List.append_nil, List.append_nil] at hall

theorem Gives.map {f : α → β} (h : Gives read ts get p bs a) :
    Gives read ts (get >>= fun a => pure (f a)) p bs (f a) := h.bind_nil (reads_pure (f a))

/-- One more type that is read back. -/
theorem Gives.cons {t : Ty} (ht : read t = .ok t) (h : Gives read ts get p bs a) : Gives read (t :: ts) get p bs a :=
  fun rest => (h rest).cons ht

theorem gives_fail {d : DecodeError} {t : Ty} (ht : t ∈ ts) (hd : read t = .error d) :
    Gives read ts (fail d : Get α) p bs a := fun _ => .refuses ht hd

theorem gives_fail_bind {d : DecodeError} {t : Ty} (ht : t ∈ ts) (hd : read t = .error d) :
    Gives read ts ((fail d : Get α) >>= next) p bs b := fun _ => .refuses ht hd

theorem gives_position {next : Int → Get α} (h : Gives read ts (next p) p bs a) :
    Gives read ts (position >>= next) p bs a := h

theorem gives_has {n : Nat} {next : Bool → Get α} (hn : n ≤ bs.length) (h : Gives read ts (next true) p bs a) :
    Gives read ts (has n >>= next) p bs a := by
  intro rest
  have htrue : ((bs ++ rest).take n).length == n := by
    rw [beq_iff_eq, List.length_take, List.length_append]
    omega
  have hhas : outcome (has n) ⟨p, bs ++ rest, []⟩ = .ok (true, ⟨p, bs ++ rest, []⟩) := by
    rw [outcome_eq_ok, has, htrue]
  rw [outcome_bind, hhas]
  exact h rest

theorem gives_ofExcept {r : Except Error α} {next : α → Get β} (hr : r = .ok a) (h : Gives read ts (next a) p bs b) :
    Gives read ts (Get.ofExcept r >>= next) p bs b := by
  subst hr
  exact h

/-- What is made of the whole of an input. -/
theorem Gives.run (h : Gives read ts get p bs a) : Answers read ts a (Get.run get ⟨p, bs, []⟩) := by
  have hall := h []
  rw [List.append_nil] at hall
  cases hs : get ⟨p, bs, []⟩ with
  | error e s =>
    rw [run_eq_error hs]
    obtain ⟨t, ht, d, hd, rfl⟩ := hall.error (outcome_eq_error.2 ⟨s, hs⟩)
    exact .refuses ht hd
  | ok b s =>
    obtain ⟨heq, hts⟩ := hall.ok (outcome_eq_ok.2 hs)
    obtain ⟨rfl, rfl⟩ := Prod.mk.inj heq
    rw [run_eq_ok.2 ⟨_, hs, rfl⟩]
    exact .gives hts

end Get

/-! ## Signatures -/

/-- A type that can stand alone is the only one with its signature. -/
theorem Signature.eq_of_parse {r : Reading} {t u : Ty} (hf : t.isFormed = true) (he : t.isEntry = false)
    (h : parse r t.signature = .ok u) : u = t := by
  obtain ⟨htext, hlen, hacc⟩ := parse_eq_ok_iff.1 h
  -- with room for both types, a reader gives both
  have hwide {v : Ty} (hf : v.isFormed = true) (he : v.isEntry = false) (htext : t.signature = v.signature)
      (hn : v.nesting ≤ max t.nesting u.nesting) :
      parse ⟨none, (max t.nesting u.nesting : Nat)⟩ t.signature = .ok v :=
    parse_eq_ok_iff.2 ⟨htext, hlen, accepts_of_isFormed hf he (Int.ofNat_le.2 hn) nofun⟩
  have hu := hwide hacc.isFormed (hacc.isEntry_eq_false rfl) htext (le_max_right _ _)
  exact Except.ok.inj (hu.symm.trans (hwide hf he rfl (le_max_left _ _)))

end Marshal
