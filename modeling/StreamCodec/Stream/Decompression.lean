import StreamCodec.Stream.Transcript

namespace StreamCodec.Stream

namespace Decompression

inductive Stage
  | read
  /-- Decompress what was read, or what the session still holds of it. -/
  | decode (pending : Bytes)
  | write (bytes : Bytes) (onward : Stage)
  | flush
  deriving DecidableEq, Repr

/-- Goes on at once if there is nothing to write. -/
def Stage.writing (bytes : Bytes) (onward : Stage) : Stage :=
  if bytes.isEmpty then onward else .write bytes onward

end Decompression

structure Decompression (ρ ω σ : Type) where
  parties : Parties ρ ω σ
  chunk : Nat
  stage : Decompression.Stage
  total : UInt64

namespace Decompression

variable {ρ ω σ : Type} [Source ρ] [Sink ω] [Decompressor σ]

def start (source : ρ) (sink : ω) (session : σ) (chunk : Nat) :
    Decompression ρ ω σ :=
  { parties := ⟨source, sink, session⟩, chunk := chunk, stage := .read
    total := 0 }

/-- Where to go on after a call. A full buffer may leave more inside the session,
so it is called again even when nothing is pending. -/
def onward {input : Bytes} {room : Nat} (transfer : Transfer input room)
    (finished : Bool) : Except CodecError Stage :=
  if finished then .ok .flush
  else if transfer.IsIdle then
    if transfer.rest.isEmpty then .ok .read
    else .error (.engineContract .decompressorStuck)
  else if transfer.rest.isEmpty ∧ 0 < transfer.roomLeft then .ok .read
  else .ok (.decode transfer.rest)

def turn : Decompression ρ ω σ → Exchange × Turn (Decompression ρ ω σ) ρ ω σ
  | ⟨⟨source, sink, session⟩, chunk, .read, total⟩ =>
      match Source.read source chunk with
      | (.bytes [] _, source) =>
          (.read [],
            if Decompressor.isFinished session then
              .next ⟨⟨source, sink, session⟩, chunk, .flush, total⟩
            else
              .done (.error (.corruptInput .endsEarly)) ⟨source, sink, session⟩)
      | (.bytes content _, source) =>
          (.read content,
            .next ⟨⟨source, sink, session⟩, chunk, .decode content, total⟩)
      | (.interrupted, source) =>
          (.readInterrupted,
            .next ⟨⟨source, sink, session⟩, chunk, .read, total⟩)
      | (.failed text, source) =>
          (.readFailed text, .done (.error (.io text)) ⟨source, sink, session⟩)
  | ⟨⟨source, sink, session⟩, chunk, .decode pending, total⟩ =>
      match Decompressor.decompress session pending chunk with
      | (.error error, session) =>
          (.callFailed error, .done (.error error) ⟨source, sink, session⟩)
      | (.ok decoded, session) =>
          (.called pending decoded.consumed decoded.output,
            match onward decoded.toTransfer (Decompressor.isFinished session) with
            | .error error => .done (.error error) ⟨source, sink, session⟩
            | .ok stage =>
                .next ⟨⟨source, sink, session⟩, chunk,
                  .writing decoded.output stage,
                  total + byteCount decoded.output⟩)
  | ⟨⟨source, sink, session⟩, chunk, .write bytes onward, total⟩ =>
      match offer sink bytes with
      | (exchange, .ok rest, sink) =>
          (exchange,
            .next ⟨⟨source, sink, session⟩, chunk, .writing rest onward, total⟩)
      | (exchange, .error error, sink) =>
          (exchange, .done (.error error) ⟨source, sink, session⟩)
  | ⟨⟨source, sink, session⟩, _, .flush, total⟩ =>
      match Sink.flush sink with
      | (.ok (), sink) => (.flushed, .done (.ok total) ⟨source, sink, session⟩)
      | (.error text, sink) =>
          (.flushFailed text, .done (.error (.io text)) ⟨source, sink, session⟩)

end Decompression

/-- Decompresses one stream from the source into the sink. What comes after the end
of the stream is left alone. -/
def decompress {ρ ω σ : Type} [Source ρ] [Sink ω] [Decompressor σ]
    (source : ρ) (sink : ω) (session : σ) (chunk turns : Nat) :
    Option (Report ρ ω σ) :=
  match checkChunk chunk with
  | .error error => some ⟨.error error, ⟨source, sink, session⟩, []⟩
  | .ok () =>
      repeatTurns Decompression.turn
        (Decompression.start source sink session chunk) [] turns

end StreamCodec.Stream
