import Marshal.Ty.Basic
import Marshal.Decimal.Binary64
/-!
# Values

A value of every type, so that an encoder never meets data of another shape: `Value.ty` reads the type off. An array
keeps the type of its elements and a maybe that holds nothing the type of what it could hold; the rest follows from the
parts. That the elements of an array are of that type, and that integers are in range and texts valid, is what
`Value.isWellFormed` adds.
-/
namespace Marshal

/-- A value of a basic type. Text is a `String`, so it has no lone surrogates. -/
inductive Scalar where
  | int (kind : IntKind) (number : Int)
  | boolean (truth : Bool)
  | double (bits : Binary64)
  | text (kind : TextKind) (content : String)
deriving DecidableEq, Repr

def Scalar.basic : Scalar → Basic
  | .int k _ => .int k
  | .boolean _ => .boolean
  | .double _ => .double
  | .text k _ => .text k

/-- Equality of the data of two scalars of one type, where doubles are numbers. -/
def Scalar.same : Scalar → Scalar → Bool
  | .double a, .double b => a.same b
  | a, b => a == b

inductive Value where
  | scalar (scalar : Scalar)
  | array (element : Ty) (items : List Value)
  | struct (members : List Value)
  | entry (key : Scalar) (value : Value)
  | variant (inner : Value)
  | nothing (inner : Ty)
  | just (content : Value)
deriving Repr, Inhabited

namespace Value

mutual
def ty : Value → Ty
  | .scalar s => .basic s.basic
  | .array t _ => .array t
  | .struct vs => .struct (tys vs)
  | .entry k v => .entry k.basic (ty v)
  | .variant _ => .variant
  | .nothing t => .maybe t
  | .just v => .maybe (ty v)

def tys : List Value → List Ty
  | [] => []
  | v :: vs => ty v :: tys vs
end

theorem tys_eq_map (vs : List Value) : tys vs = vs.map ty := by
  induction vs with
  | nil => rfl
  | cons v vs ih => rw [tys, List.map_cons, ih]

mutual
/-- Equality as a reader of the data sees it: types are equal, and doubles are compared as numbers. -/
def same : Value → Value → Bool
  | .scalar a, .scalar b => a.same b
  | .array t as, .array u bs => t == u && sameAll as bs
  | .struct as, .struct bs => sameAll as bs
  | .entry k a, .entry l b => k.same l && same a b
  | .variant a, .variant b => same a b
  | .nothing t, .nothing u => t == u
  | .just a, .just b => same a b
  | _, _ => false

def sameAll : List Value → List Value → Bool
  | [], [] => true
  | a :: as, b :: bs => same a b && sameAll as bs
  | _, _ => false
end

/-- The children of a container: elements, members, or the key and the value of a dict entry. -/
def children : Value → List Value
  | .array _ vs | .struct vs => vs
  | .entry k v => [.scalar k, v]
  | .variant v | .just v => [v]
  | .scalar _ | .nothing _ => []

end Value

end Marshal
