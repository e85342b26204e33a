import Marshal.Value.ToPlain
/-!
# Configuration documents

What a configuration holds: scalars, lists, and mappings from keys. In memory a mapping is an object, which can stand in
several places: what is changed in one of them is changed in all. A `Node` gives each mapping an identity, the same one
wherever the same object stands. A `Document` is a node of which only the contents count.
-/
namespace Marshal

/-- A document with keys from `K`, whose mappings have identities from `I`. Keys that are equal are one key, however
they are spelled. -/
inductive Node (K I : Type) where
  | null
  | boolean (truth : Bool)
  | integer (number : Int)
  | float (bits : Binary64)
  | text (content : String)
  | list (items : List (Node K I))
  | mapping (identity : I) (entries : List (K × Node K I))
deriving Repr, Inhabited

abbrev Entries (K I : Type) := List (K × Node K I)

abbrev Document (K : Type) := Node K Unit

/-- What is known of keys: names are among them, and each can be shown. -/
class Key (K : Type) where
  ofName : String → K
  toPlain : K → Plain

instance : Key String := ⟨id, fun s => .text (Text.ofString s)⟩

namespace Entries

variable {K V : Type} [DecidableEq K]

def find? (key : K) : List (K × V) → Option V
  | [] => none
  | (k, d) :: es => if k = key then some d else find? key es

/-- Gives a key a new meaning, in its place if it has one already. -/
def set (key : K) (d : V) : List (K × V) → List (K × V)
  | [] => [(key, d)]
  | (k, old) :: es => if k = key then (k, d) :: es else (k, old) :: set key d es

def erase (key : K) (es : List (K × V)) : List (K × V) := es.filter (fun e => e.1 ≠ key)

end Entries

namespace Node

variable {K I J : Type}

mutual
/-- The same document with other identities. -/
def relabel (f : I → J) : Node K I → Node K J
  | .null => .null
  | .boolean b => .boolean b
  | .integer n => .integer n
  | .float x => .float x
  | .text s => .text s
  | .list ds => .list (relabelAll f ds)
  | .mapping i es => .mapping (f i) (relabelIn f es)

def relabelAll (f : I → J) : List (Node K I) → List (Node K J)
  | [] => []
  | d :: ds => relabel f d :: relabelAll f ds

def relabelIn (f : I → J) : Entries K I → Entries K J
  | [] => []
  | e :: es => relabelEntry f e :: relabelIn f es

def relabelEntry (f : I → J) : K × Node K I → K × Node K J
  | (k, d) => (k, relabel f d)
end

/-- What a node holds, whatever its mappings are. -/
def value (d : Node K I) : Document K := d.relabel fun _ => ()

/-- Whether a document says something: it is neither null nor false, zero or empty. -/
def isTruthy : Node K I → Bool
  | .null => false
  | .boolean b => b
  | .integer n => n != 0
  | .float x => !x.isZero
  | .text s => !s.isEmpty
  | .list ds => !ds.isEmpty
  | .mapping _ es => !es.isEmpty

variable [Key K]

mutual
def toPlain : Node K I → Plain
  | .null => .none
  | .boolean b => .boolean b
  | .integer n => .integer n
  | .float x => .float x
  | .text s => .text (Text.ofString s)
  | .list ds => .sequence .list (toPlains ds)
  | .mapping _ es => .mapping (toEntries es)

def toPlains : List (Node K I) → List Plain
  | [] => []
  | d :: ds => toPlain d :: toPlains ds

def toEntries : Entries K I → List (Plain × Plain)
  | [] => []
  | e :: es => toEntry e :: toEntries es

def toEntry : K × Node K I → Plain × Plain
  | (k, d) => (Key.toPlain k, toPlain d)
end

def asName : Node K I → String
  | .text s => s
  | d => d.toPlain.render

end Node

/-- What a mapping holds. -/
def Entries.value {K I : Type} (es : Entries K I) : Entries K Unit := Node.relabelIn (fun _ => ()) es

end Marshal
