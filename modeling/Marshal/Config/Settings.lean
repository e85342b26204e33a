import Marshal.Codec
import Marshal.Config.Document
/-!
# Settings

The limits and defaults of calls that do not give their own.
-/
namespace Marshal

structure Settings where
  maxDepth : Int := Limits.depth
  maxArrayLength : Int := Limits.arrayLength
  maxMessageSize : Option Int := some Limits.messageSize
  order : ByteOrder := .little
  format : WireFormat := .dbus
deriving DecidableEq, Repr

namespace Settings

def depthName : String := "MAX_DEPTH"
def messageSizeName : String := "MAX_MESSAGE_SIZE"
def orderName : String := "DEFAULT_BYTE_ORDER"
def formatName : String := "DEFAULT_WIRE_FORMAT"

/-- A byte order by its name, which is in any case; `native` is that of the machine. -/
def namedOrder? {K I : Type} (native : ByteOrder) : Node K I → Option ByteOrder
  | .text s =>
    let spelling := String.ofList (s.toList.map Char.toLower)
    if spelling = "little" then some .little
    else if spelling = "big" then some .big
    else if spelling = "native" then some native
    else none
  | _ => none

/-- The codec of a call, with the settings for what the call does not give. -/
def codec (s : Settings) (format : Option WireFormat) (order : Option ByteOrder) (maxDepth : Option Int) : Codec :=
  ⟨format.getD s.format, order.getD s.order, maxDepth.getD s.maxDepth, s.maxArrayLength⟩

/-- The cap of a call. A call cannot lift the cap of the settings by giving none. -/
def cap (s : Settings) (maxBytes : Option Int) : Option Int := maxBytes.or s.maxMessageSize

end Settings

end Marshal
