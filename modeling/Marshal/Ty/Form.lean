import Marshal.Limits
import Marshal.Ty.Basic
/-!
# Formation of types

A type is formed from its parts by one of four functions, each of which refuses what the formats cannot carry: arrays or
structs nested too deeply, a struct without members, and a dict entry anywhere but as the element of an array.
`Ty.isFormed` tells the types that can be formed.
-/
namespace Marshal

inductive FormError where
  | arraysTooDeep
  | structsTooDeep
  | emptyStruct
  | entryAsMember
  | entryAsEntryValue
  | entryInMaybe
  | keyNotBasic (key : Ty)
deriving DecidableEq, Repr

namespace Ty

def arrayOf (element : Ty) : Except FormError Ty :=
  if Limits.arrayDepth < element.arrayDepth + 1 then .error .arraysTooDeep else .ok (.array element)

def structOf (fields : List Ty) : Except FormError Ty :=
  if fields.isEmpty then .error .emptyStruct
  else if fields.any isEntry then .error .entryAsMember
  else if Limits.structDepth < (Ty.struct fields).structDepth then .error .structsTooDeep
  else .ok (.struct fields)

def entryOf (key value : Ty) : Except FormError Ty :=
  match key with
  | .basic k =>
    if value.isEntry then .error .entryAsEntryValue
    else if Limits.structDepth < (Ty.entry k value).structDepth then .error .structsTooDeep
    else .ok (.entry k value)
  | _ => .error (.keyNotBasic key)

def maybeOf (inner : Ty) : Except FormError Ty :=
  if inner.isEntry then .error .entryInMaybe else .ok (.maybe inner)

mutual
/-- Whether a type can be formed, and so all of its parts. -/
def isFormed : Ty → Bool
  | .basic _ | .variant => true
  | .array t => isFormed t && t.arrayDepth < Limits.arrayDepth
  | .struct ts => !ts.isEmpty && areMembers ts && structDepths ts < Limits.structDepth
  | .entry _ t => isFormed t && !t.isEntry && t.structDepth < Limits.structDepth
  | .maybe t => isFormed t && !t.isEntry

def areMembers : List Ty → Bool
  | [] => true
  | t :: ts => isFormed t && !t.isEntry && areMembers ts
end

end Ty

end Marshal
