import StreamCodec.Engine.Basic
import StreamCodec.Error

namespace StreamCodec

/-- Buffered output that a session wrote into the room. -/
structure Drained (room : Nat) where
  output : Bytes
  /-- There is more, or may be more. -/
  retry : Bool
  output_le : output.length ≤ room

structure Decoded (input : Bytes) (room : Nat) extends Transfer input room where
  /-- Only the lack of room kept the session from going on. -/
  needMoreOutput : Bool

class Compressor (σ : Type) where
  compress : σ → (input : Bytes) → (room : Nat) →
    Except CodecError (Transfer input room) × σ
  flush : σ → (room : Nat) → Except CodecError (Drained room) × σ
  finish : σ → (room : Nat) → Except CodecError (Drained room) × σ

/-- A session that decompresses one stream at a time. -/
class Decompressor (σ : Type) where
  decompress : σ → (input : Bytes) → (room : Nat) →
    Except CodecError (Decoded input room) × σ
  reset : σ → Except CodecError Unit × σ
  isFinished : σ → Bool

end StreamCodec
