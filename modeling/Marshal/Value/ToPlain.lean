import Marshal.Decimal.Shortest
import Marshal.Error
/-!
# Values as plain data

`Value.toPlain` forgets types: an array of bytes is a string of bytes, an array of dict entries a mapping, other arrays
are lists, structs and lone dict entries tuples, and variants and maybes what they hold. `Value.render` shows a value by
its signature and that data.
-/
namespace Marshal

def Scalar.toPlain : Scalar → Plain
  | .int _ n => .integer n
  | .boolean b => .boolean b
  | .double x => .float x
  | .text _ s => .text (Text.ofString s)

namespace Value

def toByte : Value → UInt8
  | .scalar (.int _ n) => UInt8.ofNat n.toNat
  | _ => 0

mutual
def toPlain : Value → Plain
  | .scalar s => s.toPlain
  | .array t vs =>
    if t = .byte then .bytes .constant (vs.map toByte)
    else if t.isEntry then .mapping (Plain.ofEntries (toEntries vs))
    else .sequence .list (toPlains vs)
  | .struct vs => .sequence .tuple (toPlains vs)
  | .entry k v => .sequence .tuple [k.toPlain, toPlain v]
  | .variant v | .just v => toPlain v
  | .nothing _ => .none

def toPlains : List Value → List Plain
  | [] => []
  | v :: vs => toPlain v :: toPlains vs

def toEntries : List Value → List (Plain × Plain)
  | .entry k v :: vs => (k.toPlain, toPlain v) :: toEntries vs
  | _ :: vs => toEntries vs
  | [] => []
end

end Value

namespace Plain

/-- Doubles have the fewest digits that read back; an exponent, in at least two digits, is used below 0.0001 and from
10 ^ 16 on. -/
def floatStyle : Decimal.Style := ⟨-3, 16, 2⟩

def commas (ss : List String) : String := String.intercalate ", " ss

mutual
def render : Plain → String
  | .none => "None"
  | .boolean b => if b then "True" else "False"
  | .integer n => toString n
  | .float x => floatStyle.render x
  | .text t => Quoted.text t
  | .bytes _ bs => Quoted.bytes bs
  | .sequence .tuple [p] => "(" ++ render p ++ ",)"
  | .sequence .tuple ps => "(" ++ commas (renderAll ps) ++ ")"
  | .sequence _ ps => "[" ++ commas (renderAll ps) ++ "]"
  | .mapping es => "\x7b" ++ commas (renderEntries es) ++ "\x7d"
  | .typed v => "<" ++ (Value.ty v).quoted ++ ">"
  | .cells _ _ | .unwalkable _ | .object => "<object>"

def renderAll : List Plain → List String
  | [] => []
  | p :: ps => render p :: renderAll ps

def renderEntries : List (Plain × Plain) → List String
  | [] => []
  | e :: es => renderEntry e :: renderEntries es

def renderEntry : Plain × Plain → String
  | (k, v) => render k ++ ": " ++ render v
end

end Plain

/-- A value by its signature and its data. -/
def Value.render (v : Value) : String := "Value(" ++ v.ty.quoted ++ ", " ++ v.toPlain.render ++ ")"

end Marshal
