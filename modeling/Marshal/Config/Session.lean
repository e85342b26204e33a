import Marshal.Config.Files
import Marshal.Config.Settings
/-!
# Loading settings once

A session loads its settings once, from the file that it is told, or takes the standard ones. Asking again for the same
source gives the same settings, whatever became of the file; asking for another source is an error. A load that fails
leaves the session as it was.

What makes settings of the entries of a file, or finds faults in them, is `validate`.
-/
namespace Marshal

inductive ConfigError (Fault : Type) where
  | file (cause : FileError)
  | settings (fault : Fault)
  | otherSource
  | notLoaded
deriving DecidableEq, Repr

def ConfigError.message {Fault : Type} : ConfigError Fault → String
  | .file cause => cause.message
  | .settings _ => ""
  | .otherSource => "loading config twice with a different file"
  | .notLoaded => "get_global_settings() not called before"

/-- Settings with the name of the file that they came from. -/
structure Loaded where
  source : Option String
  settings : Settings
deriving DecidableEq, Repr

structure Session (K : Type) where
  files : Files K
  loaded : Option Loaded := none

namespace Session

variable {K Fault : Type} [DecidableEq K] [Key K] (validate : Entries K Unit → Except Fault Settings)

def settingsOf (fs : Files K) (name : String) : Except (ConfigError Fault) Settings := do
  let es ← (fs.resolve name).mapError .file
  (validate es.value).mapError .settings

def fresh (fs : Files K) (source : Option String) : Except (ConfigError Fault) Settings :=
  match source with
  | none => .ok {}
  | some name => settingsOf validate fs name

/-- The settings of the session, which are loaded the first time. -/
def load (s : Session K) (source : Option String) : Except (ConfigError Fault) Settings × Session K :=
  match s.loaded with
  | some l => if l.source = source then (.ok l.settings, s) else (.error .otherSource, s)
  | none =>
    match fresh validate s.files source with
    | .ok settings => (.ok settings, { s with loaded := some ⟨source, settings⟩ })
    | .error e => (.error e, s)

omit [DecidableEq K] [Key K]

def source (s : Session K) : Except (ConfigError Fault) (Option String) :=
  match s.loaded with
  | some l => .ok l.source
  | none => .error .notLoaded

def write (s : Session K) (name : String) (content : Node K Nat) : Session K :=
  { s with files := s.files.write name content }

/-- The configuration for tests that comes with the library. -/
def testing : Node String Nat := .mapping 0
  [(Settings.depthName, .integer 64), (Settings.messageSizeName, .integer 1048576),
    (Settings.orderName, .text "little"), (Settings.formatName, .text "dbus")]

end Session

end Marshal
