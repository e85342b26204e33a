import Marshal.Text.CodePoint
import Marshal.Value.Basic
/-!
# Plain data

Data without types, as a program has it before it is given a type: numbers, text, bytes, sequences and mappings, and
values that are typed already. Text may hold lone surrogates. Plain data is what `Value.ofPlain` builds values from and
what `Value.toPlain` turns them into.
-/
namespace Marshal

/-- How a string of bytes is held: as an immutable string, a mutable one, or a view of another. -/
inductive BytesKind where
  | constant | mutable | view
deriving DecidableEq, Repr

/-- How a sequence is held: as a list, a tuple, or a stream that can be walked once. -/
inductive SequenceKind where
  | list | tuple | stream
deriving DecidableEq, Repr

/-- Sequences that fail when they are walked: a stream that fails on its way, a view of rows of bytes, and a view of
what is gone. -/
inductive Unwalkable where
  | stream
  | grid (rows : List (List UInt8))
  | gone
deriving DecidableEq, Repr

inductive Plain where
  | none
  | boolean (truth : Bool)
  | integer (number : Int)
  | float (bits : Binary64)
  | text (content : Text)
  | bytes (kind : BytesKind) (content : List UInt8)
  | sequence (kind : SequenceKind) (items : List Plain)
  /-- A mapping by its entries, in the order in which their keys came first. -/
  | mapping (entries : List (Plain × Plain))
  | typed (value : Value)
  /-- A view of other items than bytes, with the bytes that it covers. -/
  | cells (content : List UInt8) (items : List Plain)
  | unwalkable (what : Unwalkable)
  | object
deriving Repr, Inhabited

inductive PlainKind where
  | none | boolean | integer | float | text
  | bytes (kind : BytesKind)
  | sequence (kind : SequenceKind)
  | mapping | typed | object
deriving DecidableEq, Repr

def Unwalkable.kind : Unwalkable → PlainKind
  | .stream => .sequence .stream
  | .grid _ | .gone => .bytes .view

namespace Plain

def kind : Plain → PlainKind
  | .none => .none
  | .boolean _ => .boolean
  | .integer _ => .integer
  | .float _ => .float
  | .text _ => .text
  | .bytes k _ => .bytes k
  | .sequence k _ => .sequence k
  | .mapping _ => .mapping
  | .typed _ => .typed
  | .cells _ _ => .bytes .view
  | .unwalkable what => what.kind
  | .object => .object

/-- Equality of numbers, where a boolean counts as 0 or 1. -/
def sameNumber : Plain → Plain → Bool
  | .boolean a, .boolean b => a == b
  | .boolean a, .integer n | .integer n, .boolean a => n == (if a then 1 else 0)
  | .boolean a, .float x | .float x, .boolean a => x.equalsInt (if a then 1 else 0)
  | .integer m, .integer n => m == n
  | .integer n, .float x | .float x, .integer n => x.equalsInt n
  | .float x, .float y => x.same y
  | _, _ => false

mutual
/-- Equality of data that can be the key of a mapping. No NaN equals another, and each is taken to be an object of its
own: two keys that are one and the same NaN, which are equal as keys, are not told from two. -/
def sameKey : Plain → Plain → Bool
  | .none, .none => true
  | .text s, .text t => s == t
  | .bytes _ a, .bytes _ b => a == b
  | .sequence .tuple as, .sequence .tuple bs => sameKeys as bs
  | .typed a, .typed b => a.same b
  | a, b => sameNumber a b

def sameKeys : List Plain → List Plain → Bool
  | [], [] => true
  | a :: as, b :: bs => sameKey a b && sameKeys as bs
  | _, _ => false
end

/-- Puts an entry into a mapping: an equal key keeps its place and its spelling, and takes the new value. -/
def insertEntry (key value : Plain) : List (Plain × Plain) → List (Plain × Plain)
  | [] => [(key, value)]
  | (k, v) :: rest => if sameKey k key then (k, value) :: rest else (k, v) :: insertEntry key value rest

/-- The mapping with these entries, later ones taking the place of earlier ones with an equal key. -/
def ofEntries (entries : List (Plain × Plain)) : List (Plain × Plain) :=
  entries.foldl (fun m e => insertEntry e.1 e.2 m) []

mutual
/-- What keeps data from being a key: data that can change is none, and neither is a tuple that holds such data. -/
def barred? : Plain → Option PlainKind
  | .bytes .mutable _ => some (.bytes .mutable)
  | .sequence .list _ => some (.sequence .list)
  | .sequence .tuple ps => barredAmong? ps
  | .mapping _ => some .mapping
  | _ => Option.none

def barredAmong? : List Plain → Option PlainKind
  | [] => Option.none
  | p :: ps => (barred? p).or (barredAmong? ps)
end

/-- Puts an entry into a mapping, if its key can be one. -/
def addEntry (key value : Plain) (entries : List (Plain × Plain)) : Except PlainKind (List (Plain × Plain)) :=
  match barred? key with
  | some kind => .error kind
  | Option.none => .ok (insertEntry key value entries)

/-- The number of characters, bytes, items or entries, of data that has one. -/
def length? : Plain → Option Nat
  | .text t => some t.length
  | .bytes _ bs => some bs.length
  | .sequence .list ps | .sequence .tuple ps => some ps.length
  | .mapping es => some es.length
  | .cells _ ps => some ps.length
  | .unwalkable (.grid rows) => some rows.length
  | _ => Option.none

end Plain

end Marshal
