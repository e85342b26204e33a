/-!
# Text as code points

Text that comes from outside may hold lone surrogates, which no `Char` is, so it is kept as a list of code points.
Text inside a value is a `String`; `toString?` is the only way from one to the other, and `toString?_ofString` says
that it loses nothing.
-/
namespace Marshal

-- Powers are those of the core library, whatever else is in scope.
attribute [local instance (high)] instPowNat

/-- A Unicode code point, lone surrogates included. -/
abbrev CodePoint := Nat

/-- Why a number is no code point. One that does not even fit in 32 bits is told apart. -/
inductive CodePointFault where
  | outOfRange
  | tooLarge
deriving DecidableEq, Repr

def CodePoint.ofInt (n : Int) : Except CodePointFault CodePoint :=
  if n < -(2 ^ (31 : Nat)) ∨ 2 ^ (31 : Nat) ≤ n then .error .tooLarge
  else if n < 0 ∨ 0x110000 ≤ n then .error .outOfRange
  else .ok n.toNat

abbrev Text := List CodePoint

namespace Text

def ofString (s : String) : Text := s.toList.map Char.toNat

/-- The character at a code point, none for a surrogate or for a number past the last code point. -/
def char? (c : CodePoint) : Option Char := if c.isValidChar then some (Char.ofNat c) else none

/-- Whether every code point is a character. -/
def IsScalar (t : Text) : Prop := ∀ c ∈ t, c.isValidChar

instance (t : Text) : Decidable t.IsScalar := inferInstanceAs (Decidable (∀ c ∈ t, c.isValidChar))

/-- The string with these code points, none when one of them is no character. -/
def toString? (t : Text) : Option String :=
  if t.IsScalar then some (String.ofList (t.map Char.ofNat)) else none

theorem isScalar_ofString (s : String) : (ofString s).IsScalar := by
  intro c hc
  obtain ⟨ch, _, rfl⟩ := List.mem_map.1 hc
  exact ch.valid

theorem toString?_ofString (s : String) : toString? (ofString s) = some s := by
  have h : ∀ l : List Char, (l.map Char.toNat).map Char.ofNat = l := by
    intro l
    induction l with
    | nil => rfl
    | cons c l ih => simp [ih]
  rw [toString?, if_pos (isScalar_ofString s), ofString, h, String.ofList_toList]

end Text

end Marshal
