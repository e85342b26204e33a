import Marshal.Text.ObjectPath
import Marshal.Ty.Form
import Marshal.Value.Basic
import Marshal.Wire.Integer
/-!
# Well-formed values

What the builders of values guarantee and the encoders rely on. Integers are in range, and texts hold no NUL and are
what their kind says. Every type can be formed, the elements of an array are of the array's type, and no variant holds a
bare dict entry. All of it holds at every level, also inside variants, whose content is no part of their type.
-/
namespace Marshal

def TextKind.admits : TextKind → Text → Bool
  | .string, _ => true
  | .objectPath, t => ObjectPath.isValid t
  | .signature, t => Signature.isValid t

def Scalar.isWellFormed : Scalar → Bool
  | .int k n => Integer.Fits k.width k.isSigned n
  | .boolean _ | .double _ => true
  | .text k s => let t := Text.ofString s; !t.contains 0 && k.admits t

namespace Value

mutual
def isWellFormed : Value → Bool
  | .scalar s => s.isWellFormed
  | .array t vs => (Ty.array t).isFormed && areOf t vs
  | .struct vs => (Ty.struct (tys vs)).isFormed && areWellFormed vs
  | .entry k v => (Ty.entry k.basic (ty v)).isFormed && k.isWellFormed && isWellFormed v
  | .variant v => !v.ty.isEntry && isWellFormed v
  | .nothing t => (Ty.maybe t).isFormed
  | .just v => (Ty.maybe (ty v)).isFormed && isWellFormed v

def areWellFormed : List Value → Bool
  | [] => true
  | v :: vs => isWellFormed v && areWellFormed vs

def areOf (t : Ty) : List Value → Bool
  | [] => true
  | v :: vs => isWellFormed v && v.ty == t && areOf t vs
end

end Value

end Marshal
