import StreamCodec.Error
import StreamCodec.Log

namespace StreamCodec

/-- What a call answers, what it leaves behind, and what it logged. -/
structure Outcome (σ α : Type) where
  result : Except CodecError α
  state : σ
  log : List Log.Event

end StreamCodec
