import Sub0Log.Library.Bytes
import Sub0Log.Library.Checked
import Sub0Log.Library.Crc
import Sub0Log.Wire.Format
import Sub0Log.Wire.Headers
import Sub0Log.Reader.Segment
import Sub0Log.Reader.Containment
import Sub0Log.Reader.Truncation
import Sub0Log.Reader.Decoder
import Sub0Log.Reader.Typed
import Sub0Log.Reader.Accounting
import Sub0Log.Library.Interleaving
import Sub0Log.Reader.Uniform
import Sub0Log.Producer.Segment
import Sub0Log.System.Image
import Sub0Log.System.Creation
import Sub0Log.Producer.Encode
import Sub0Log.Producer.Record
import Sub0Log.Producer.Machine
import Sub0Log.Producer.Program
import Sub0Log.Producer.Chunk
import Sub0Log.Producer.Invariant
import Sub0Log.Producer.Rules
import Sub0Log.Producer.Stores
import Sub0Log.Producer.Writer
import Sub0Log.Producer.Publication
import Sub0Log.Producer.Chain
import Sub0Log.Producer.Calls
import Sub0Log.System.Decode
import Sub0Log.System.Launch
import Sub0Log.System.Log
import Sub0Log.System.Ledger
import Sub0Log.System.Solo
import Sub0Log.System.RoundTrip
import Sub0Log.Reader.Splice
import Sub0Log.System.Claims
import Sub0Log.System.Refusal
import Sub0Log.Library.Copying
import Sub0Log.System.Live
import Sub0Log.System.Owners
import Sub0Log.Cat.Follow
import Sub0Log.Abi.Host
import Sub0Log.Producer.Effects
import Sub0Log.Abi.Effects
import Sub0Log.Abi.Announce
import Sub0Log.Abi.Runs
import Sub0Log.Reader.Locality
import Sub0Log.System.Healthy
import Sub0Log.Export.Json
import Sub0Log.Export.RoundTrip
import Sub0Log.Export.Total
import Sub0Log.System.Damage
import Sub0Log.Abi.SiteTable
import Sub0Log.System.Agreement
import Sub0Log.Abi.Payload
import Sub0Log.Abi.Redefinition
import Sub0Log.Library.Relabel
import Sub0Log.System.Moved
import Sub0Log.Child.Balance
import Sub0Log.Child.CommandLine
import Sub0Log.Child.Endings
import Sub0Log.Export.Format
import Sub0Log.Export.Utf8
import Sub0Log.Library.Tiling
import Sub0Log.Producer.Ordinal
import Sub0Log.Producer.Reservation
import Sub0Log.System.Definitions
import Sub0Log.Wire.Checksum
import Sub0Log.Abi.Truncation
import Sub0Log.Child.Truncation
import Sub0Log.Cat.Main
import Sub0Log.System.Rebind
import Sub0Log.System.InPlace
import Sub0Log.Cat.Live
import Sub0Log.System.Gate
