import StreamCodec.Stream.Transcript

namespace StreamCodec.Stream

namespace Compression

inductive Stage
  | read
  | feed (pending : Bytes)
  | finish
  | write (bytes : Bytes) (onward : Stage)
  | flush
  deriving DecidableEq, Repr

/-- Goes on at once if there is nothing to write. -/
def Stage.writing (bytes : Bytes) (onward : Stage) : Stage :=
  if bytes.isEmpty then onward else .write bytes onward

def Stage.feeding (pending : Bytes) : Stage :=
  if pending.isEmpty then .read else .feed pending

end Compression

structure Compression (ρ ω σ : Type) where
  parties : Parties ρ ω σ
  chunk : Nat
  stage : Compression.Stage
  total : UInt64

namespace Compression

variable {ρ ω σ : Type} [Source ρ] [Sink ω] [Compressor σ]

def start (source : ρ) (sink : ω) (session : σ) (chunk : Nat) :
    Compression ρ ω σ :=
  { parties := ⟨source, sink, session⟩, chunk := chunk, stage := .read
    total := 0 }

def turn : Compression ρ ω σ → Exchange × Turn (Compression ρ ω σ) ρ ω σ
  | ⟨⟨source, sink, session⟩, chunk, .read, total⟩ =>
      match Source.read source chunk with
      | (.bytes [] _, source) =>
          (.read [], .next ⟨⟨source, sink, session⟩, chunk, .finish, total⟩)
      | (.bytes content _, source) =>
          (.read content,
            .next ⟨⟨source, sink, session⟩, chunk, .feed content, total⟩)
      | (.interrupted, source) =>
          (.readInterrupted,
            .next ⟨⟨source, sink, session⟩, chunk, .read, total⟩)
      | (.failed text, source) =>
          (.readFailed text, .done (.error (.io text)) ⟨source, sink, session⟩)
  | ⟨⟨source, sink, session⟩, chunk, .feed pending, total⟩ =>
      match Compressor.compress session pending chunk with
      | (.error error, session) =>
          (.callFailed error, .done (.error error) ⟨source, sink, session⟩)
      | (.ok transfer, session) =>
          (.called pending transfer.consumed transfer.output,
            if transfer.IsIdle then
              .done (.error (.engineContract .compressorStuck))
                ⟨source, sink, session⟩
            else
              .next ⟨⟨source, sink, session⟩, chunk,
                .writing transfer.output (.feeding transfer.rest),
                total + byteCount transfer.output⟩)
  | ⟨⟨source, sink, session⟩, chunk, .finish, total⟩ =>
      match Compressor.finish session chunk with
      | (.error error, session) =>
          (.callFailed error, .done (.error error) ⟨source, sink, session⟩)
      | (.ok drained, session) =>
          (.finished drained.output drained.retry,
            .next ⟨⟨source, sink, session⟩, chunk,
              .writing drained.output (if drained.retry then .finish else .flush),
              total + byteCount drained.output⟩)
  | ⟨⟨source, sink, session⟩, chunk, .write bytes onward, total⟩ =>
      match offer sink bytes with
      | (exchange, .ok rest, sink) =>
          (exchange,
            .next ⟨⟨source, sink, session⟩, chunk, .writing rest onward, total⟩)
      | (exchange, .error error, sink) =>
          (exchange, .done (.error error) ⟨source, sink, session⟩)
  | ⟨⟨source, sink, session⟩, _, .flush, total⟩ =>
      match Sink.flush sink with
      | (.ok (), sink) => (.flushed, .done (.ok total) ⟨source, sink, session⟩)
      | (.error text, sink) =>
          (.flushFailed text, .done (.error (.io text)) ⟨source, sink, session⟩)

end Compression

def compress {ρ ω σ : Type} [Source ρ] [Sink ω] [Compressor σ]
    (source : ρ) (sink : ω) (session : σ) (chunk turns : Nat) :
    Option (Report ρ ω σ) :=
  match checkChunk chunk with
  | .error error => some ⟨.error error, ⟨source, sink, session⟩, []⟩
  | .ok () =>
      repeatTurns Compression.turn
        (Compression.start source sink session chunk) [] turns

end StreamCodec.Stream
