import Marshal.Codec
import Marshal.Config.Session
import Marshal.Proofs.Caps
import Marshal.Proofs.Composition
import Marshal.Proofs.Dbus.Canonical
import Marshal.Proofs.Dbus.Maybe
import Marshal.Proofs.Dbus.RoundTrip
import Marshal.Proofs.Decoding
import Marshal.Proofs.Depth
import Marshal.Proofs.Gvariant.Canonical
import Marshal.Proofs.Gvariant.RoundTrip
import Marshal.Proofs.RandomAccess
import Marshal.Proofs.SignatureLimit
import Marshal.Proofs.Signatures
import Marshal.Script.Read
import Marshal.Script.Write
import Marshal.Value.OfPlain
import Marshal.Value.WellFormed
import Marshal.Proofs.Gvariant.Position
import Marshal.Proofs.Dbus.Position
import Marshal.Proofs.Dbus.Streaming
import Marshal.Proofs.Dbus.Extent
import Marshal.Proofs.Framing.Extent
import Marshal.Proofs.Gvariant.Extent
import Marshal.Proofs.Gvariant.Refusal
import Marshal.Proofs.Encoding
import Marshal.Proofs.Builders
import Marshal.Proofs.ByteOrder
import Marshal.Proofs.Limits
import Marshal.Proofs.Gvariant.Siblings
import Marshal.Proofs.Sessions
import Marshal.Proofs.Script.Read
import Marshal.Proofs.Script.Write
import Marshal.Proofs.Framing.Widths
import Marshal.Proofs.Framing.Coverage
import Marshal.Proofs.Gvariant.FixedSize
import Marshal.Proofs.Conversion
import Marshal.Proofs.Merge.Sharing
import Marshal.Proofs.Exactness
import Marshal.Proofs.Mismatch
import Marshal.Proofs.ObjectPaths
import Marshal.Proofs.Script.Conservation
import Marshal.Proofs.Amplification
import Marshal.Proofs.Chains
