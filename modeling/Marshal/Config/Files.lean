import Marshal.Config.Merge
/-!
# Configuration files

A file can extend another one, named by its `extends` entry relative to its own directory; the entries of the extending
file win. `Files.resolve` follows such a chain to its end. A chain that comes back to a file never ends, and one that
visits more files than there are has come back to one.
-/
namespace Marshal

/-- A name of a file. Its root is what an absolute name starts with, one slash or two, and otherwise empty. -/
structure Path where
  root : String := ""
  components : List String
deriving DecidableEq, Repr

namespace Path

/-- Reads a name; empty components and single dots say nothing. Two slashes are kept apart from one, and more count as
one. -/
def parse (s : String) : Path :=
  let root :=
    if s.startsWith "//" && !s.startsWith "///" then "//"
    else if s.startsWith "/" then "/"
    else ""
  ⟨root, (s.splitOn "/").filter (fun c => c != "" && c != ".")⟩

def isAbsolute (p : Path) : Bool := p.root != ""

def render (p : Path) : String :=
  if p.isAbsolute then p.root ++ String.intercalate "/" p.components
  else if p.components.isEmpty then "."
  else String.intercalate "/" p.components

/-- A name seen from the directory of a file. -/
def beside (p other : Path) : Path :=
  if other.isAbsolute then other else ⟨p.root, p.components.dropLast ++ other.components⟩

/-- Whether a name, as it is written, can only be that of a directory: its last component is empty or a dot. -/
def namesDirectory (s : String) : Bool :=
  let last := (s.splitOn "/").getLast?
  last == some "" || last == some "."

end Path

inductive FileError where
  | notFile (name : String)
  | notMapping (name : String)
  | endless
deriving DecidableEq, Repr

def FileError.message : FileError → String
  | .notFile name => s!"'{name}' is not a file"
  | .notMapping name => s!"'{name}' cannot be parsed as a dictionary"
  | .endless => "Cannot parse yaml with recursive extensions."

/-- A file by its place, which is the components of its absolute name, none of them a dot or two. -/
structure File (K : Type) where
  location : List String
  content : Node K Nat

/-- The files that there are. Names that are not absolute are seen from the current directory. -/
structure Files (K : Type) where
  current : List String
  files : List (File K)

namespace Files

variable {K : Type}

def extendsName : String := "extends"

/-- Whether a location is a directory, which the current one is and each that it or a file is in. -/
def isDirectory (fs : Files K) (location : List String) : Bool :=
  location.isPrefixOf fs.current ||
    fs.files.any (fun f => location.length < f.location.length && location.isPrefixOf f.location)

def find? (fs : Files K) (location : List String) : Option (Node K Nat) :=
  (List.find? (fun f : File K => f.location == location) fs.files).map File.content

/-- Where components lead from a directory. Each step has to start in a directory; the outermost one is its own
parent. -/
def locate (fs : Files K) : (location : List String) → (components : List String) → Option (List String)
  | location, [] => some location
  | location, c :: cs =>
    if !isDirectory fs location then none
    else if c = ".." then locate fs location.dropLast cs
    else locate fs (location ++ [c]) cs

/-- Where a name leads that is seen from a directory. -/
def lead (fs : Files K) (directory : List String) (p : Path) : Option (List String) :=
  locate fs (if p.isAbsolute then [] else directory) p.components

/-- The entries of the file at a place, if there is one; an empty file has none. `name` is its name in messages. -/
def read (fs : Files K) (name : String) (place : Option (List String)) : Except FileError (Entries K Nat) :=
  match place.bind (find? fs) with
  | none => .error (.notFile name)
  | some .null => .ok []
  | some (.mapping _ es) => .ok es
  | some _ => .error (.notMapping name)

variable [DecidableEq K] [Key K]

/-- The file that entries extend, as a name relative to theirs. -/
def extended? (es : Entries K Nat) : Option (Node K Nat) :=
  (Entries.find? (Key.ofName extendsName) es).filter Node.isTruthy

/-- The entries of a file without the one that names another file. -/
def own (es : Entries K Nat) : Entries K Nat := Entries.erase (Key.ofName extendsName) es

/-- Follows a chain of at most `n` files. -/
def chain (fs : Files K) : (n : Nat) → (name : String) → Path → Except FileError (Entries K Nat)
  | 0, _, _ => .error .endless
  | n + 1, name, p => do
    let es ← read fs name (lead fs fs.current p)
    match extended? es with
    | none => return own es
    | some d =>
      let next := p.beside (Path.parse d.asName)
      let base ← chain fs n next.render next
      return Entries.merge base (own es)

/-- The entries of a file, laid over those of the file that it extends. -/
def resolve (fs : Files K) (name : String) : Except FileError (Entries K Nat) :=
  if Path.namesDirectory name then .error (.notFile name)
  else chain fs (fs.files.length + 1) name (Path.parse name)

omit [DecidableEq K] [Key K]

def write (fs : Files K) (name : String) (content : Node K Nat) : Files K :=
  let p := Path.parse name
  let location := (if p.isAbsolute then [] else fs.current) ++ p.components
  { fs with files := ⟨location, content⟩ :: fs.files.filter (fun f => f.location != location) }

end Files

end Marshal
