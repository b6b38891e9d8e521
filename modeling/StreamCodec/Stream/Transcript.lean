import StreamCodec.Session.Basic
import StreamCodec.Stream.Sink
import StreamCodec.Stream.Source

namespace StreamCodec.Stream

def largestChunk : Nat := 32 * 1024 * 1024

def defaultChunk : Nat := 64 * 1024

def checkChunk (chunk : Nat) : Except CodecError Unit :=
  if chunk = 0 ∨ largestChunk < chunk then
    .error (.invalidState (.chunkSize chunk largestChunk))
  else .ok ()

/-- One thing that happened between a stream's source, session and sink. -/
inductive Exchange
  | read (content : Bytes)
  | readInterrupted
  | readFailed (text : String)
  /-- A call on content, with what it took and what it wrote. -/
  | called (input : Bytes) (consumed : Nat) (output : Bytes)
  | finished (output : Bytes) (retry : Bool)
  | callFailed (error : CodecError)
  | wrote (offered : Bytes) (count : Nat)
  | writeInterrupted
  | writeFailed (text : String)
  | flushed
  | flushFailed (text : String)
  deriving DecidableEq, Repr

structure Parties (ρ ω σ : Type) where
  source : ρ
  sink : ω
  session : σ

/-- How a stream ended: with the number of bytes written, or at its first error. -/
structure Report (ρ ω σ : Type) where
  result : Except CodecError UInt64
  parties : Parties ρ ω σ
  transcript : List Exchange

inductive Turn (μ ρ ω σ : Type)
  | next (machine : μ)
  | done (result : Except CodecError UInt64) (parties : Parties ρ ω σ)

/-- A sink that accepts nothing will never have written all. -/
def nothingAccepted : String := "failed to write whole buffer"

def offer [Sink ω] (sink : ω) (bytes : Bytes) :
    Exchange × Except CodecError Bytes × ω :=
  match Sink.write sink bytes with
  | (.accepted 0 _, sink) =>
      (.wrote bytes 0, .error (.io nothingAccepted), sink)
  | (.accepted count _, sink) => (.wrote bytes count, .ok (bytes.drop count), sink)
  | (.interrupted, sink) => (.writeInterrupted, .ok bytes, sink)
  | (.failed text, sink) => (.writeFailed text, .error (.io text), sink)

/-- Repeats turns until one is the last. A session, a source or a sink may go on
for ever, so the number of turns is limited and the answer beyond it is `none`. -/
def repeatTurns (turn : μ → Exchange × Turn μ ρ ω σ) (machine : μ)
    (transcript : List Exchange) : (turns : Nat) → Option (Report ρ ω σ)
  | 0 => none
  | turns + 1 =>
      match turn machine with
      | (exchange, .next machine) =>
          repeatTurns turn machine (exchange :: transcript) turns
      | (exchange, .done result parties) =>
          some ⟨result, parties, (exchange :: transcript).reverse⟩

theorem repeatTurns_add (turn : μ → Exchange × Turn μ ρ ω σ) (machine : μ)
    (transcript : List Exchange) (turns extra : Nat) (report : Report ρ ω σ)
    (done : repeatTurns turn machine transcript turns = some report) :
    repeatTurns turn machine transcript (turns + extra) = some report := by
  induction turns generalizing machine transcript with
  | zero => cases done
  | succ turns induction =>
      rw [Nat.add_right_comm]
      unfold repeatTurns at done ⊢
      split at done
      · next outcome => simpa only [outcome] using induction _ _ done
      · next outcome => simpa only [outcome] using done

end StreamCodec.Stream
