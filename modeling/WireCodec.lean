import WireCodec.Format.Name
import WireCodec.Schema.Drawing
import WireCodec.Schema.Whole
import WireCodec.Script
import WireCodec.Proofs.Values
import WireCodec.Proofs.Canonical
import WireCodec.Proofs.Coupling
import WireCodec.Proofs.MoreInput
import WireCodec.Proofs.DepthNeed
import WireCodec.Proofs.DepthLimit
import WireCodec.Proofs.MapsAsLists
import WireCodec.Proofs.Framing
import WireCodec.Proofs.Position
import WireCodec.Proofs.NormalForm
import WireCodec.Proofs.Scripts
import WireCodec.Proofs.Mirroring
import WireCodec.Proofs.Failures
import WireCodec.Proofs.Size
import WireCodec.Proofs.InRange
import WireCodec.Proofs.Programs
import WireCodec.Proofs.KeySorting
import WireCodec.Proofs.Sorting
import WireCodec.Proofs.Contract
import WireCodec.Proofs.Base128
import WireCodec.Proofs.CharReading
import WireCodec.Proofs.TextByChar
import WireCodec.Proofs.Blobs
import WireCodec.Proofs.DepthAccounting
import WireCodec.Proofs.WholeNumbers
