import Marshal.Proofs.Formation
import Marshal.Proofs.Steps
import Marshal.Value.OfPlain
/-!
# How conversion from plain data ends

Data that does not suit a type is a mismatch, at whatever depth it stands and whatever it is: `Value.convert_settles`
says so of every pair of a type and data, with three exceptions. An integer is taken for a double where a type has one,
and an integer past the largest finite double (`Binary64.ofInt?_eq_none_iff`) is refused by the conversion itself, as
too large. An integer that is out of range is shown by the message of the mismatch, which fails if the integer has more
digits than are printed. A sequence that fails when it is walked fails with an error of its own. `Value.sites` finds the
places in the data where one of these can happen, and `Value.Site.Fails` tells when it does.
-/
namespace Marshal

/-! ## The integers that are rounded to doubles -/

namespace Binary64

/-- The significand that rounding down keeps has 53 bits. -/
theorem kept_lt (n : Nat) : n * 2 ^ (52 - n.log2) / 2 ^ (n.log2 - 52) < 2 ^ 53 := by
  have hlt : n < 2 ^ (n.log2 + 1) := Nat.lt_log2_self
  rw [Nat.div_lt_iff_lt_mul (by positivity)]
  calc n * 2 ^ (52 - n.log2)
    _ < 2 ^ (n.log2 + 1) * 2 ^ (52 - n.log2) := Nat.mul_lt_mul_of_pos_right hlt (by positivity)
    _ = 2 ^ 53 * 2 ^ (n.log2 - 52) := by
      rw [← pow_add, ← pow_add]
      congr 1
      omega

/-- A number below the largest power of two is rounded to one that is not past it. -/
theorem roundBits_lt_of_log2_lt {n : Nat} (h : n.log2 < 1023) : roundBits n < 2047 * 2 ^ 52 := by
  have hkept := kept_lt n
  unfold roundBits
  dsimp only
  generalize n * 2 ^ (52 - n.log2) / 2 ^ (n.log2 - 52) = kept at hkept
  generalize (_ || _ : Bool) = up
  cases up <;> simp only [if_true, if_false, Bool.false_eq_true] <;> omega

theorem le_roundBits_of_lt_log2 {n : Nat} (h : 1023 < n.log2) : 2047 * 2 ^ 52 ≤ roundBits n := by
  unfold roundBits
  dsimp only
  omega

/-- A significand overflows, so that the exponent is the next, when all its bits are set and rounding goes up. -/
theorem roundBits_lt_iff {n k : Nat} (h : n.log2 = k + 53) :
    roundBits n < (k + 53 + 1024) * 2 ^ 52 ↔ n < 2 ^ 54 * 2 ^ k - 2 ^ k := by
  have hkept := kept_lt n
  have hpos : 0 < 2 ^ k := by positivity
  unfold roundBits
  dsimp only
  rw [h] at hkept ⊢
  have hunit : 2 ^ (k + 53 - 52) = 2 * 2 ^ k := pow_succ' 2 k
  have hscale : 52 - (k + 53) = 0 := by omega
  rw [hunit, hscale, pow_zero, mul_one] at hkept ⊢
  generalize 2 ^ k = half at hpos hkept ⊢
  have hn := Nat.div_add_mod n (2 * half)
  have hlost := Nat.mod_lt n (by omega : 0 < 2 * half)
  by_cases hall : n / (2 * half) = 2 ^ 53 - 1
  · rw [hall] at hn ⊢
    generalize n % (2 * half) = lost at hn hlost ⊢
    -- the last bit that is kept is set, so a tie goes up too
    have hup : (2 * half < 2 * lost || (2 * half == 2 * lost && k + 53 - 52 != 0 && (2 ^ 53 - 1) % 2 == 1)) =
        decide (half ≤ lost) := by
      rw [Bool.eq_iff_iff]
      simp only [Bool.or_eq_true, Bool.and_eq_true, decide_eq_true_eq, beq_iff_eq, bne_iff_ne]
      omega
    rw [hup]
    simp only [decide_eq_true_eq]
    split <;> omega
  · have hsmall : n / (2 * half) < 2 ^ 53 - 1 := by omega
    rw [Nat.div_lt_iff_lt_mul (by omega)] at hsmall
    refine iff_of_true ?_ (by omega)
    split <;> omega

/-- Rounding stays below the bits of infinity up to halfway between the largest finite double and the next power of
two. -/
theorem roundBits_lt_infinity_iff {m : Nat} (hm : m ≠ 0) :
    roundBits m < 2047 * 2 ^ 52 ↔ m < 2 ^ 1024 - 2 ^ 970 := by
  have htop : (2 : Nat) ^ 1024 = 2 ^ 54 * 2 ^ 970 := by rw [← pow_add]
  have hbelow : (2 : Nat) ^ 1023 = 2 ^ 53 * 2 ^ 970 := by rw [← pow_add]
  have hpos : 0 < 2 ^ 970 := by positivity
  have hlog (k : Nat) : m.log2 < k ↔ m < 2 ^ k := Nat.log2_lt hm
  rw [htop]
  rcases lt_trichotomy m.log2 1023 with h | h | h
  · have hlt := (hlog 1023).1 h
    rw [hbelow] at hlt
    exact iff_of_true (roundBits_lt_of_log2_lt h) (by omega)
  · exact roundBits_lt_iff h
  · have hge := mt (hlog 1024).2 (by omega)
    rw [htop] at hge
    exact iff_of_false (le_roundBits_of_lt_log2 h).not_gt (by omega)

/-- **Which integers are past the largest finite double**: those from halfway to the next power of two on. -/
theorem ofInt?_eq_none_iff {n : Int} : ofInt? n = none ↔ 2 ^ 1024 - 2 ^ 970 ≤ n.natAbs := by
  unfold ofInt?
  by_cases h0 : n = 0
  · subst h0
    have hpos : (0 : Nat) < 2 ^ 1024 - 2 ^ 970 := Nat.sub_pos_of_lt (pow_lt_pow_right₀ (by decide) (by decide))
    rw [if_pos rfl, Int.natAbs_zero]
    exact iff_of_false nofun hpos.not_ge
  rw [if_neg h0]
  dsimp only
  by_cases hlt : n.natAbs < 2 ^ 1024 - 2 ^ 970
  · rw [if_pos ((roundBits_lt_infinity_iff (Int.natAbs_ne_zero.2 h0)).2 hlt)]
    exact iff_of_false nofun hlt.not_ge
  · rw [if_neg (mt (roundBits_lt_infinity_iff (Int.natAbs_ne_zero.2 h0)).1 hlt)]
    exact iff_of_true rfl (not_lt.1 hlt)

end Binary64

/-! ## The places where a conversion can fail by itself -/

namespace Value

/-- What a conversion meets that can fail by itself: an integer in the place of a scalar, or a sequence that cannot be
walked. -/
inductive Site where
  | integer (place : Basic) (number : Int)
  | walk (what : Unwalkable)

/-- How it fails, where messages show no numbers of more than `limit` digits. -/
inductive Site.Fails (limit : Option Nat) : Site → Error → Prop
  | tooLarge {n : Int} (h : 2 ^ 1024 - 2 ^ 970 ≤ n.natAbs) : Fails limit (.integer .double n) .integerTooLarge
  | tooLong {k : IntKind} {n : Int} {digits : Nat} (hlimit : limit = some digits)
    (hfits : ¬ Integer.Fits k.width k.isSigned n) (h : 10 ^ digits ≤ n.natAbs) :
    Fails limit (.integer (.int k) n) (.numberTooLong digits)
  | unwalkable {what : Unwalkable} : Fails limit (.walk what) (.unwalkable what)

def scalarSites : Basic → Plain → List Site
  | k, .integer n => [.integer k n]
  | _, _ => []

def walkSites : Plain → List Site
  | .unwalkable what => [.walk what]
  | _ => []

/-- The places in data that is walked, and then in what comes of that. -/
def walked {α : Type} (p : Plain) (r : Except Error α) (f : α → List Site) : List Site :=
  match r with
  | .ok a => walkSites p ++ f a
  | .error _ => walkSites p

mutual
/-- The places in data that the conversion to a type comes to. -/
def sites : Ty → Plain → List Site
  | .basic b, p => scalarSites b p
  | .array t, p =>
    match t, p.bytes? with
    | .basic (.int .byte), some _ => []
    | t, _ => walked p (arrayItems t p) fun ps => ps.flatMap (sites t)
  | .struct ts, p => walked p (membersFor ts p) (sitesAmong ts)
  | .entry k t, p => walked p (pairFor (.entry k t) p) fun (key, value) => scalarSites k key ++ sites t value
  | .variant, p => scalarSites (.int .int64) p
  | .maybe t, p => sites t p

def sitesAmong : List Ty → List Plain → List Site
  | t :: ts, p :: ps => sites t p ++ sitesAmong ts ps
  | _, _ => []
end

/-- Whether a conversion that comes to the given places ends as it may: with a result only if none of them fails, and
otherwise with a mismatch, whose message shows no integer but one of theirs that is out of range, or as one of them
fails. -/
structure Converts {α : Type} (r : Except Error α) (ss : List Site) : Prop where
  ok {a : α} : r = .ok a → ∀ s ∈ ss, ∀ limit e, ¬ s.Fails limit e
  error {e : Error} : r = .error e →
    (∃ m, e = .mismatch m ∧ ∀ n, m.number? = some n →
      ∃ k, .integer (.int k) n ∈ ss ∧ ¬ Integer.Fits k.width k.isSigned n) ∨
    ∃ s ∈ ss, s.Fails none e

variable {α β : Type} {r : Except Error α} {ss ss' : List Site}

theorem converts_ok (a : α) : Converts (.ok a) [] := ⟨fun _ => List.forall_mem_nil _, nofun⟩

/-- A mismatch whose message shows no number. -/
theorem converts_mismatch {m : Mismatch} (hm : m.number? = none) (ss : List Site) :
    Converts (mismatch m : Except Error α) ss where
  ok := nofun
  error h := by
    cases h
    exact .inl ⟨m, rfl, fun n hn => by cases hm.symm.trans hn⟩

/-- There can be more places than a conversion that fails comes to. -/
theorem Converts.error_mono {e : Error} (h : Converts (.error e : Except Error α) ss) (hss : ss ⊆ ss') :
    Converts (.error e : Except Error β) ss' where
  ok := nofun
  error he := by
    cases he
    refine (h.error rfl).imp (fun ⟨m, hm, hn⟩ => ⟨m, hm, fun n h => ?_⟩) (fun ⟨s, hs, hfails⟩ => ⟨s, hss hs, hfails⟩)
    obtain ⟨k, hk, hfits⟩ := hn n h
    exact ⟨k, hss hk, hfits⟩

/-- What follows a step that has come to its places without a failure. -/
theorem Converts.append {a : α} {r' : Except Error β} (h : Converts (.ok a) ss) (h' : Converts r' ss') :
    Converts r' (ss ++ ss') := by
  cases r' with
  | ok b => exact ⟨fun _ => List.forall_mem_append.2 ⟨h.ok rfl, h'.ok rfl⟩, nofun⟩
  | error e => exact h'.error_mono (List.subset_append_right _ _)

/-- The places of one step and then those of the next. -/
theorem Converts.bind {next : α → Except Error β} (h : Converts r ss) (hn : ∀ a, Converts (next a) ss') :
    Converts (r >>= next) (ss ++ ss') := by
  cases r with
  | ok a => exact h.append (hn a)
  | error e => exact h.error_mono (List.subset_append_left _ _)

theorem Converts.map {f : α → β} (h : Converts r ss) : Converts (r.map f) ss := by
  cases r with
  | ok a => exact ⟨fun _ => h.ok rfl, nofun⟩
  | error e => exact h.error_mono (List.Subset.refl _)

/-- A result that is only worked on further. -/
theorem Converts.bind_ok {f : α → β} (h : Converts r ss) : Converts (r >>= fun a => .ok (f a)) ss := by
  have hmap : (r >>= fun a => .ok (f a)) = r.map f := by cases r <;> rfl
  rw [hmap]
  exact h.map

/-- A walk, before a step whose places depend on what it gives. -/
theorem Converts.walked {p : Plain} {next : α → Except Error β} {f : α → List Site} (h : Converts r (walkSites p))
    (hn : ∀ a, Converts (next a) (f a)) : Converts (r >>= next) (walked p r f) := by
  cases r with
  | ok a => exact h.append (hn a)
  | error e => exact h.error_mono (List.Subset.refl _)

theorem converts_mapM {f : α → Except Error β} {g : α → List Site} (h : ∀ a, Converts (f a) (g a)) :
    ∀ as : List α, Converts (as.mapM f) (as.flatMap g)
  | [] => converts_ok []
  | a :: as => by
    rw [List.mapM_cons, List.flatMap_cons]
    exact (h a).bind fun b => (converts_mapM h as).bind_ok

/-! ### Steps -/

variable {t : Ty} {p : Plain} {k : Basic}

theorem walkSites_of_items? {ps : List Plain} (h : p.items? = some ps) : walkSites p = [] := by
  cases p with
  | unwalkable what => cases h
  | _ => rfl

theorem converts_itemsFor : Converts (itemsFor t p) (walkSites p) := by
  unfold itemsFor
  split
  · refine ⟨nofun, fun he => ?_⟩
    cases he
    exact .inr ⟨_, List.mem_singleton_self _, .unwalkable⟩
  · split
    · rename_i hitems
      rw [walkSites_of_items? hitems]
      exact converts_ok _
    · exact converts_mismatch rfl _

theorem converts_arrayItems : Converts (arrayItems t p) (walkSites p) := by
  unfold arrayItems
  split
  · split
    · exact converts_ok _
    · exact converts_itemsFor
  · exact converts_itemsFor

/-- A walk whose items are counted. -/
theorem Converts.counted {next : α → Except Error β} (h : Converts r ss) (hn : ∀ a, Converts (next a) []) :
    Converts (r >>= next) ss := List.append_nil ss ▸ h.bind hn

theorem converts_pairFor : Converts (pairFor t p) (walkSites p) :=
  converts_itemsFor.counted fun ps => by
    split
    · exact converts_ok _
    · exact converts_mismatch rfl _

theorem converts_membersFor {ts : List Ty} : Converts (membersFor ts p) (walkSites p) :=
  converts_itemsFor.counted fun ps => by
    split
    · exact converts_mismatch rfl _
    · exact converts_ok _

theorem converts_wrap {v : Value} : Converts (wrap v) [] := by
  unfold wrap
  split
  · exact converts_mismatch rfl _
  · exact converts_ok _

theorem converts_checkText {kind : TextKind} {text : Text} : Converts (Scalar.checkText kind text) [] := by
  unfold Scalar.checkText
  split
  · exact converts_mismatch rfl _
  split
  · exact converts_mismatch rfl _
  split
  · exact converts_ok _
  all_goals
    split
    · exact converts_ok _
    · exact converts_mismatch rfl _

theorem converts_integer {kind : IntKind} {n : Int} :
    Converts (Scalar.ofPlain (.int kind) (.integer n)) [.integer (.int kind) n] := by
  rw [Scalar.ofPlain]
  split
  · rename_i hfits
    refine ⟨fun _ => List.forall_mem_singleton.2 fun limit e hfails => ?_, nofun⟩
    cases hfails with
    | tooLong _ hunfit _ => exact hunfit hfits
  · rename_i hunfit
    refine ⟨nofun, fun he => ?_⟩
    cases he
    refine .inl ⟨_, rfl, fun n hn => ?_⟩
    cases hn
    exact ⟨kind, List.mem_singleton_self _, hunfit⟩

/-- The one conversion of a scalar that can fail by itself is that of an integer to a double. -/
theorem converts_double {n : Int} : Converts (Scalar.ofPlain .double (.integer n)) [.integer .double n] := by
  rw [Scalar.ofPlain]
  split
  · rename_i x hx
    refine ⟨fun _ => List.forall_mem_singleton.2 fun limit e hfails => ?_, nofun⟩
    cases hfails with
    | tooLarge h => cases hx.symm.trans (Binary64.ofInt?_eq_none_iff.2 h)
  · rename_i hnone
    refine ⟨nofun, fun he => ?_⟩
    cases he
    exact .inr ⟨_, List.mem_singleton_self _, .tooLarge (Binary64.ofInt?_eq_none_iff.1 hnone)⟩

theorem converts_scalar : Converts (Scalar.ofPlain k p) (scalarSites k p) := by
  unfold Scalar.ofPlain
  split
  · exact converts_integer
  · exact converts_mismatch rfl _
  · exact converts_ok _
  · exact converts_mismatch rfl _
  · exact converts_ok _
  · exact converts_double
  · exact converts_mismatch rfl _
  · exact converts_checkText.map
  · exact converts_mismatch rfl _

theorem converts_key : Converts (keyOfPlain k p) (scalarSites k p) := by
  unfold keyOfPlain
  split
  · split
    · exact converts_ok _
    · exact converts_mismatch rfl _
  · exact converts_mismatch rfl _
  · exact converts_scalar

theorem converts_infer : Converts (infer p) (scalarSites (.int .int64) p) := by
  unfold infer
  split
  · exact converts_ok _
  · exact converts_ok _
  · exact Converts.map converts_integer
  · exact converts_ok _
  · exact Converts.map (converts_scalar (k := .text .string))
  · exact converts_ok _
  · exact converts_ok _
  · exact converts_mismatch rfl _

/-- A conversion does not look into a value. -/
theorem sites_typed {v : Value} : ∀ t : Ty, sites t (.typed v) = []
  | .basic _ | .struct _ | .entry _ _ | .variant => rfl
  | .array t => by
    unfold sites
    split <;> rfl
  | .maybe t => sites_typed t

theorem sites_none : ∀ t : Ty, sites t .none = []
  | .basic _ | .struct _ | .entry _ _ | .variant => rfl
  | .array t => by
    unfold sites
    split <;> rfl
  | .maybe t => sites_none t

theorem sites_bytes {bs : List UInt8} (h : p.bytes? = some bs) : sites (.array (.basic (.int .byte))) p = [] := by
  unfold sites
  rw [h]

/-- What does not give an array of bytes as a whole is walked. -/
theorem sites_items (h : ∀ bs, t = .basic (.int .byte) → p.bytes? = some bs → False) :
    sites (.array t) p = walked p (arrayItems t p) fun ps => ps.flatMap (sites t) := by
  unfold sites
  split
  · rename_i hbytes
    exact (h _ rfl hbytes).elim
  · rfl

theorem converts_typedOr {wraps : Bool} {build : Except Error Value} (h : Converts build (sites t p)) :
    Converts (typedOr t p wraps build) (sites t p) := by
  unfold typedOr
  split
  · split
    · rw [sites_typed]
      exact converts_ok _
    split
    · exact h
    · exact converts_mismatch rfl _
  · exact h

mutual
theorem converts_ofPlain : ∀ (t : Ty) (p : Plain), Converts (ofPlain t p) (sites t p)
  | .basic b, p => converts_typedOr (t := .basic b) converts_scalar.bind_ok
  | .array t, p => by
    unfold ofPlain
    refine converts_typedOr (t := .array t) ?_
    split
    · rename_i hbytes
      rw [sites_bytes hbytes]
      exact converts_ok _
    · rename_i hother
      rw [sites_items hother]
      exact converts_arrayItems.walked fun ps => (converts_mapM (converts_ofPlain _) ps).bind_ok
  | .struct ts, p =>
    converts_typedOr (t := .struct ts) (converts_membersFor.walked fun ps => (converts_ofPlains ts ps).bind_ok)
  | .entry k t, p => converts_typedOr (t := .entry k t) (converts_pairFor.walked fun (key, value) =>
      converts_key.bind fun s => (converts_ofPlain t value).bind_ok)
  | .variant, p => converts_typedOr (t := .variant) (converts_infer.counted fun _ => converts_wrap)
  | .maybe t, p => by
    refine converts_typedOr (t := .maybe t) ?_
    split
    · exact (sites_none t).symm ▸ converts_ok _
    · exact (converts_ofPlain t p).bind_ok

theorem converts_ofPlains : ∀ (ts : List Ty) (ps : List Plain), Converts (ofPlains ts ps) (sitesAmong ts ps)
  | [], _ => converts_ok _
  | _ :: _, [] => converts_ok _
  | t :: ts, p :: ps => (converts_ofPlain t p).bind fun _ => (converts_ofPlains ts ps).bind_ok
end

/-! ## The outcome -/

variable {limit : Option Nat}

theorem Site.Fails.told {s : Site} {e : Error} (h : s.Fails none e) : s.Fails limit (e.told limit) := by
  cases h with
  | tooLarge h => cases limit <;> exact .tooLarge h
  | tooLong hlimit => cases hlimit
  | unwalkable => cases limit <;> exact .unwalkable

theorem told_outOfRange {k : IntKind} {n : Int} {digits : Nat} (h : 10 ^ digits ≤ n.natAbs) :
    (Error.mismatch (.outOfRange k n)).told (some digits) = .numberTooLong digits := if_pos h

/-- What becomes of a mismatch when it is told. -/
theorem told_mismatch (m : Mismatch) : (Error.mismatch m).told limit = .mismatch m ∨
    ∃ digits n, limit = some digits ∧ m.number? = some n ∧ 10 ^ digits ≤ n.natAbs ∧
      (Error.mismatch m).told limit = .numberTooLong digits := by
  unfold Error.told
  split
  · rename_i digits m' heq
    cases heq
    split
    · rename_i n hn
      split
      · rename_i h
        exact .inr ⟨digits, n, rfl, hn, h, rfl⟩
      · exact .inl rfl
    · exact .inl rfl
  · exact .inl rfl

/-- **Data that does not suit a type is a mismatch.** Of any type and any data, wherever it stands, either a value comes
out, or a mismatch, or else the conversion came to a place that fails by itself and the error is that of the place. No
value comes out of data with such a place. -/
theorem convert_settles (limit : Option Nat) (t : Ty) (p : Plain) :
    (∃ v, convert limit t p = .ok v ∧ ∀ s ∈ sites t p, ∀ e, ¬ s.Fails limit e) ∨
      (∃ m, convert limit t p = .error (.mismatch m)) ∨
        ∃ s ∈ sites t p, ∃ e, s.Fails limit e ∧ convert limit t p = .error e := by
  have h := converts_ofPlain t p
  unfold convert
  cases hr : ofPlain t p with
  | ok v => exact .inl ⟨v, rfl, fun s hs => h.ok hr s hs limit⟩
  | error e =>
    rcases h.error hr with ⟨m, rfl, hnumber⟩ | ⟨s, hs, hfails⟩
    · rcases told_mismatch m with htold | ⟨digits, n, hlimit, hn, hlong, htold⟩
      · exact .inr (.inl ⟨m, congrArg _ htold⟩)
      · obtain ⟨k, hk, hfits⟩ := hnumber n hn
        exact .inr (.inr ⟨_, hk, _, .tooLong hlimit hfits hlong, congrArg _ htold⟩)
    · exact .inr (.inr ⟨s, hs, _, hfails.told, rfl⟩)

theorem convert_of_not_fits {k : IntKind} {n : Int} {digits : Nat} (hfits : ¬ Integer.Fits k.width k.isSigned n)
    (h : 10 ^ digits ≤ n.natAbs) :
    convert (some digits) (.basic (.int k)) (.integer n) = .error (.numberTooLong digits) := by
  have hrange : ofPlain (.basic (.int k)) (.integer n) = .error (.mismatch (.outOfRange k n)) := by
    refine except_bind_eq_error.2 (.inl ?_)
    rw [Scalar.ofPlain, if_neg hfits]
    rfl
  rw [convert, hrange, Except.mapError, told_outOfRange h]

/-- A one with 400 zeros is no double, a one with 4300 zeros no byte that a message could show, and a stream can fail
while its items are taken. None of these is called a mismatch. -/
theorem convert_power_of_ten :
    let convert := convert (some 4300)
    let double := convert (.basic .double) (.integer (10 ^ 400))
    let byte := convert (.basic (.int .byte)) (.integer (10 ^ 4300))
    let bytes := convert (.array (.basic (.int .byte))) (.unwalkable .stream)
    (∀ t ∈ [Ty.basic .double, .basic (.int .byte), .array (.basic (.int .byte))], t.Constructed) ∧
      double = .error .integerTooLarge ∧ byte = .error (.numberTooLong 4300) ∧ bytes = .error (.unwalkable .stream) ∧
      ∀ r ∈ [double, byte, bytes], ¬ ((∃ v, r = .ok v) ∨ ∃ m, r = .error (.mismatch m)) := by
  intro convert double byte bytes
  have hlarge : Scalar.ofPlain .double (.integer (10 ^ 400)) = .error .integerTooLarge := by
    rw [Scalar.ofPlain, show Binary64.ofInt? (10 ^ 400) = none by decide +kernel]
  have hdouble : double = .error .integerTooLarge :=
    congrArg (Except.mapError (Error.told (some 4300))) (except_bind_eq_error.2 (.inl hlarge))
  have hbyte : byte = .error (.numberTooLong 4300) := convert_of_not_fits (by decide +kernel) (by decide +kernel)
  have hbytes : bytes = .error (.unwalkable .stream) := rfl
  refine ⟨?_, hdouble, hbyte, hbytes, ?_⟩
  · simp only [List.forall_mem_cons, List.not_mem_nil, false_imp_iff, implies_true, and_true]
    exact ⟨.basic _, .basic _, .array (.basic _) rfl⟩
  · simp only [List.forall_mem_cons, List.not_mem_nil, false_imp_iff, implies_true, and_true, hdouble, hbyte, hbytes]
    simp

end Value

end Marshal
