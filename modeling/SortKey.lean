import SortKey.FixedWidth.Lemmas
import SortKey.KeyBuffer
import SortKey.Rank
import SortKey.Proofs.ByteOrder
import SortKey.Proofs.Ranking
import SortKey.Proofs.FrameOrder
import SortKey.Proofs.LeafEncoding
import SortKey.Proofs.Magnitude
import SortKey.Proofs.Encoding
import SortKey.Proofs.Encodable
import SortKey.Proofs.CodecOrder
import SortKey.Proofs.FieldOrder
import SortKey.Proofs.Decoder
import SortKey.Proofs.Utf8RoundTrip
import SortKey.Proofs.LeafRoundTrip
import SortKey.Proofs.CodecRoundTrip
import SortKey.Proofs.FieldRoundTrip
import SortKey.Proofs.DecoderStart
import SortKey.Proofs.Twin
import SortKey.Proofs.Composition
import SortKey.Proofs.ClosedSource
import SortKey.Proofs.StreamAgreement
import SortKey.Proofs.Utf8Acceptance
import SortKey.Proofs.FrameForms
import SortKey.Proofs.Acceptance
import SortKey.Proofs.CodecAcceptance
import SortKey.Proofs.Reencoding
import SortKey.Proofs.Delimiting
import SortKey.Proofs.Truncation
import SortKey.Proofs.BigFloatInvariant
import SortKey.Proofs.BigFloatRecord
import SortKey.Proofs.Arrival
import SortKey.Proofs.CleanEnd
import SortKey.Proofs.NeedlessEscapes
import SortKey.Proofs.WithinLimits
import SortKey.Proofs.LimitedRoundTrip
import SortKey.Proofs.Failure
import SortKey.Proofs.RaisedLimits
import SortKey.Proofs.DrawBound
import SortKey.Proofs.Appending
import SortKey.Proofs.DigitOrder
import SortKey.Proofs.IntegerOrder
import SortKey.Proofs.IntegerDecoding
import SortKey.Proofs.IntegerFaults
import SortKey.Proofs.BigFloatNumber
import SortKey.Proofs.BigFloatOrder
import SortKey.Proofs.BigFloatFormat
import SortKey.Proofs.RationalDecoding
import SortKey.Proofs.FramesInTurn
import SortKey.Proofs.RationalOrder
import SortKey.Proofs.Concatenation
import SortKey.Proofs.CheckedDecoding
import SortKey.Proofs.KeyCursor
import SortKey.Proofs.Progress
import SortKey.Proofs.BigFloatWriting
import SortKey.Proofs.BigFloatScaling
import SortKey.Proofs.IeeeNumber
import SortKey.Proofs.DoubleConversion
import SortKey.Proofs.IeeeOrder
import SortKey.Proofs.DoubleOrder
import SortKey.Proofs.Utf8Flaw
import SortKey.Proofs.Utf8Order
import SortKey.Proofs.FixedWidthOrder
