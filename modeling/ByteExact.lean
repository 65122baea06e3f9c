import ByteExact.ByteOrder.Slice
import ByteExact.Codec
import ByteExact.Config.Environment
import ByteExact.Config.File
import ByteExact.Stream.Played
import ByteExact.Stream.Throttled
import ByteExact.Proofs.Extent
import ByteExact.Proofs.Piece
import ByteExact.Proofs.Admissible
import ByteExact.Proofs.Shape
import ByteExact.Proofs.Encoding
import ByteExact.Proofs.Filling
import ByteExact.Proofs.Outcome
import ByteExact.Proofs.RoundTrip
import ByteExact.Proofs.Exactness
import ByteExact.Proofs.Refusal
import ByteExact.Proofs.Defect
import ByteExact.Proofs.Sizing
import ByteExact.Proofs.Unsupported
import ByteExact.Proofs.Independence
import ByteExact.Proofs.Acceptance
import ByteExact.Proofs.Arrival
import ByteExact.Proofs.Bare
import ByteExact.Proofs.Framing
import ByteExact.Proofs.Overflow
import ByteExact.Proofs.Bulk
import ByteExact.Proofs.Limit
import ByteExact.Proofs.Naming
import ByteExact.Proofs.Mirror
import ByteExact.Proofs.Appending
import ByteExact.Proofs.Backend
import ByteExact.Proofs.Saving
import ByteExact.Proofs.Grammar
import ByteExact.Proofs.Script
import ByteExact.Proofs.InPlace
