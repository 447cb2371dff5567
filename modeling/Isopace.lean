import Isopace.LengthCodec.Canonical
import Isopace.Iso8583.Tiling
import Isopace.Iso8583.PathCache
import Isopace.Iso8583.Presence
import Isopace.Iso8583.FailedWrite
import Isopace.Iso8583.Sealed
import Isopace.Iso8583.Strict
import Isopace.Iso8583.Interchange
import Isopace.FieldCodec.Numbers
import Isopace.Iso8583.Exhaustive
import Isopace.Iso8583.Luhn
import Isopace.Render.ProtobufValues
import Isopace.Render.JsonioWire
import Isopace.Render.TagPaths
import Isopace.Render.XmlioLossless
import Isopace.Render.Fields
import Isopace.Render.Redaction
import Isopace.Flow.Idempotency
import Isopace.Flow.Journal
import Isopace.Flow.Duplicates
import Isopace.Space.Crash
import Isopace.Space.Faults
import Isopace.Space.Local
import Isopace.Mux.Conservation
import Isopace.Mux.Key
import Isopace.Runtime.Shutdown
import Isopace.Runtime.BadFiles
import Isopace.Runtime.Config
import Isopace.Teq.LiveSwitches
import Isopace.Payshield.Client
import Isopace.Link.Channel
import Isopace.Link.Pool
import Isopace.Link.XmlFrame
import Isopace.Vault.Wrap
import Isopace.Vault.Refinement
import Isopace.Vault.Dukpt
