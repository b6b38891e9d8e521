import StreamCodec.Accelerator.Loopback
import StreamCodec.Codec.Factory
import StreamCodec.Deflate.Encoder
import StreamCodec.Inflate.Engine
import StreamCodec.Session.Drive
import StreamCodec.Session.Scripted
import StreamCodec.Stream.Compression
import StreamCodec.Stream.Decompression
import StreamCodec.Proofs.Accelerator.Sessions
import StreamCodec.Proofs.Codec.Capacity
import StreamCodec.Proofs.Codec.Inflation
import StreamCodec.Proofs.Codec.RoundTrip
import StreamCodec.Proofs.Session.Flushing
import StreamCodec.Proofs.Session.Schedule
import StreamCodec.Proofs.Stream.Agreement
import StreamCodec.Proofs.Stream.RoundTrip
import StreamCodec.Proofs.Backend.Selection
import StreamCodec.Proofs.Session.Lifecycle
import StreamCodec.Proofs.Session.Phases
import StreamCodec.Proofs.Stream.Compressing
import StreamCodec.Proofs.Stream.Decompressing
import StreamCodec.Proofs.Codec.Sizing
import StreamCodec.Proofs.Codec.Coverage
import StreamCodec.Proofs.Codec.Directions
import StreamCodec.Proofs.Session.Stalling
import StreamCodec.Proofs.Accelerator.Querying
import StreamCodec.Proofs.Stream.Ending
import StreamCodec.Proofs.Backend.Rereading
import StreamCodec.Proofs.Codec.Tiling
