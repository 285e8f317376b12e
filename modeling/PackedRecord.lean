import PackedRecord.Packer
import PackedRecord.Proofs.Acceptance
import PackedRecord.Proofs.Contracts
import PackedRecord.Proofs.Locality
import PackedRecord.Proofs.ScalarRoundTrip
import PackedRecord.Proofs.TextFrames
import PackedRecord.Proofs.References
import PackedRecord.Proofs.Steps
import PackedRecord.Proofs.Portable
import PackedRecord.Proofs.RoundTrip
import PackedRecord.Proofs.RecordStreams
import PackedRecord.Proofs.StringArrays
import PackedRecord.Proofs.FixedArrays
import PackedRecord.Proofs.StableSizes
import PackedRecord.Proofs.Failures
import PackedRecord.Proofs.FirstFailure
import PackedRecord.Proofs.Evolution
import PackedRecord.Proofs.TextBounds
import PackedRecord.Proofs.HostileInput
import PackedRecord.Proofs.Intact
import PackedRecord.Proofs.Frame
import PackedRecord.Proofs.PartialRecords
import PackedRecord.Proofs.Noninterference
import PackedRecord.Proofs.CountedPayloads
import PackedRecord.Proofs.ReusedDestinations
import PackedRecord.Proofs.NarrowLimits
import PackedRecord.Proofs.Calls
import PackedRecord.Proofs.ShortWrites
import PackedRecord.Proofs.ShortReads
import PackedRecord.Proofs.Wrappers
import PackedRecord.Proofs.WordTerminators
import PackedRecord.Proofs.TagGrammar
import PackedRecord.Proofs.ByteOrders
import PackedRecord.Proofs.StrictDecoding
import PackedRecord.Proofs.FramedStrings
import PackedRecord.Proofs.RecursionNeed
import PackedRecord.Proofs.SurplusSlots
import PackedRecord.Proofs.SingleSlots
import PackedRecord.Proofs.IntegerImages
import PackedRecord.Proofs.NumberStrings
import PackedRecord.Proofs.BulkBytes
import PackedRecord.Proofs.Utf16Text
import PackedRecord.Proofs.AcceptedScalars
import PackedRecord.Proofs.ExpressionValues
import PackedRecord.Proofs.NameResolution
import PackedRecord.Proofs.TerminatedStrings
import PackedRecord.Proofs.Utf16Frames
import PackedRecord.Proofs.TypedValues
import PackedRecord.Proofs.IntegerLiterals
