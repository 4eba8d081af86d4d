import Nalchi.Bits
import Nalchi.Run
import Nalchi.IntTypes
import Nalchi.Words
import Nalchi.Writer
import Nalchi.Measurer
import Nalchi.Reader
import Nalchi.Format
import Nalchi.Packing
import Nalchi.Fields
import Nalchi.Appending
import Nalchi.Binding
import Nalchi.WriterRuns
import Nalchi.Serializing
import Nalchi.Measuring
import Nalchi.Fetching
import Nalchi.Cursor
import Nalchi.Delivering
import Nalchi.ReaderRefinement
import Nalchi.ReaderRuns
import Nalchi.FailingReads
import Nalchi.CursorRefinement
import Nalchi.RoundTrip
import Nalchi.ReaderBinding
import Nalchi.RangeSoundness
import Nalchi.SharedPayload
import Nalchi.SocketExtensions
import Nalchi.PayloadDelivery
import Nalchi.Releases
import Nalchi.ReleaseInvariant
import Nalchi.Callbacks
import Nalchi.Progress
import Nalchi.FreedOnce
import Nalchi.WriterFailure
import Nalchi.WriterRepresentation
import Nalchi.ReaderRepresentation
import Nalchi.SignedOverflow
import Nalchi.LengthPrefix
import Nalchi.StringBounds
import Nalchi.TypeIndependence
import Nalchi.Elementwise
import Nalchi.Framing
import Nalchi.Truncation
import Nalchi.CStrings
import Nalchi.Relay
import Nalchi.FlatApi
import Nalchi.Accounting
import Nalchi.Ownership
import Nalchi.Store
import Nalchi.StoreInvariant
import Nalchi.StoreRuns
import Nalchi.Pipeline
import Nalchi.Outbox
import Nalchi.OutboxRuns
import Nalchi.Schedules
import Nalchi.FullWords
import Nalchi.Logical
import Nalchi.Locality
