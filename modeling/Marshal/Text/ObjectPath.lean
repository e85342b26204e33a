import Marshal.Text.CodePoint
/-!
# Object paths

An object path is `/`, or one or more elements, each a `/` followed by one or more ASCII letters, digits and
underscores. The recogniser walks the text once and only remembers whether the last character was a `/`.
-/
namespace Marshal.ObjectPath

def slash : CodePoint := '/'.toNat

/-- The characters of an element: ASCII letters and digits and the underscore. -/
def isNameChar (c : CodePoint) : Bool :=
  ('A'.toNat ≤ c && c ≤ 'Z'.toNat) || ('a'.toNat ≤ c && c ≤ 'z'.toNat) || ('0'.toNat ≤ c && c ≤ '9'.toNat) ||
    c == '_'.toNat

/-- Whether the text completes a path that so far ended with a `/` (`fresh`) or inside an element. -/
def completes : (fresh : Bool) → Text → Bool
  | fresh, [] => !fresh
  | fresh, c :: t => if isNameChar c then completes false t else !fresh && c == slash && completes true t

def isValid : Text → Bool
  | [] => false
  | c :: t => c == slash && (t.isEmpty || completes true t)

end Marshal.ObjectPath
