import StreamCodec.Engine.Basic
import StreamCodec.Inflate.Run

namespace StreamCodec.Inflate

namespace Decoder

def step (reach : Reach) (flush : Flush) (input : Bytes) (room : Nat)
    (consumed_le : reach.consumed ≤ input.length)
    (written_le : reach.written.length ≤ room) : Step input room where
  consumed := reach.consumed
  output := reach.written.reverse
  status :=
    match reach.decoder.phase with
    | .finished => .streamEnd
    | _ =>
        if flush = .finish ∨ reach.consumed = 0 ∧ reach.written.isEmpty then .stalled
        else .progress
  consumed_le := consumed_le
  output_le := by simpa using written_le

/-- A call that meets a fault reports no progress. -/
def run (decoder : Decoder) (flush : Flush) (input : Bytes) (room : Nat) :
    Except (Option String) (Step input room) × Decoder :=
  match decoder.phase with
  | .failed fault => (.error fault.again.text?, decoder)
  | _ =>
      let reach := decoder.advance 0 room [] input
      match reach.decoder.phase with
      | .failed fault => (.error fault.text?, reach.decoder)
      | _ =>
          (.ok (step reach flush input room (decoder.advance_consumed_le room input)
            (decoder.advance_written_le room input)), reach.decoder)

end Decoder

instance : InflateEngine Decoder where
  start := Decoder.start
  run := Decoder.run
  rewind := fun zlibFramed _ =>
    Decoder.start (if zlibFramed then .zlib else .deflate)

end StreamCodec.Inflate
