import StreamCodec.Bytes
import StreamCodec.Error

namespace StreamCodec.Accelerator

/-- What a driver does before it answers. It may read and write what its host
keeps for it, call accelerated codecs, and ask for sessions of this thread. -/
inductive Dialogue (δ η α : Type)
  | done (answer : α)
  | read (next : η → Dialogue δ η α)
  | write (host : η) (next : Dialogue δ η α)
  | compress (driver : δ) (input : Bytes) (room : Nat)
      (next : Except CodecError Bytes → Dialogue δ η α)
  | decompress (driver : δ) (input : Bytes) (room : Nat)
      (next : Except CodecError Bytes → Dialogue δ η α)
  | hasSession (name : String) (next : Bool → Dialogue δ η α)

namespace Dialogue

variable {δ η α β : Type}

def bind : Dialogue δ η α → (α → Dialogue δ η β) → Dialogue δ η β
  | done answer, follow => follow answer
  | read next, follow => read fun host => (next host).bind follow
  | write host next, follow => write host (next.bind follow)
  | compress driver input room next, follow =>
      compress driver input room fun result => (next result).bind follow
  | decompress driver input room next, follow =>
      decompress driver input room fun result => (next result).bind follow
  | hasSession name next, follow =>
      hasSession name fun found => (next found).bind follow

instance : Monad (Dialogue δ η) where
  pure := done
  bind := bind

end Dialogue

abbrev Written (room : Nat) : Type := { bytes : Bytes // bytes.length ≤ room }

/-- A kind of accelerator: `δ` are its drivers, `η` is what the host keeps for
them, and `κ` are its sessions. A session call leaves the session in a new state. -/
class Driver (δ : Type) (η κ : outParam Type) where
  name : δ → String
  maxCompressedLength : δ → Nat → Nat
  openSession : δ → Dialogue δ η (Except Failure κ)
  compress : κ → (input : Bytes) → (room : Nat) →
    Dialogue δ η (Except Failure (Written room) × κ)
  decompress : κ → (input : Bytes) → (room : Nat) →
    Dialogue δ η (Except Failure (Written room) × κ)

end StreamCodec.Accelerator
