import StreamCodec.Session.Basic

namespace StreamCodec

/-! Calls repeated until the work is done. A session may ask for more for ever, so
each loop has a limit on its calls and answers `none` beyond it. -/

namespace Drive

inductive Stop
  | done
  | stalled
  | failed (error : CodecError)
  deriving DecidableEq, Repr

end Drive

structure Drive (σ : Type) where
  session : σ
  read : Nat
  /-- What the calls wrote, latest call first. -/
  pieces : List Bytes
  stop : Drive.Stop

namespace Drive

def written (drive : Drive σ) : Bytes :=
  drive.pieces.reverse.flatten

def repeated (call : σ → (room : Nat) → Except CodecError (Drained room) × σ)
    (room : Nat) (session : σ) (pieces : List Bytes) :
    (calls : Nat) → Option (Drive σ)
  | 0 => none
  | calls + 1 =>
      match call session room with
      | (.error error, session) => some ⟨session, 0, pieces, .failed error⟩
      | (.ok drained, session) =>
          if drained.retry then
            repeated call room session (drained.output :: pieces) calls
          else some ⟨session, 0, drained.output :: pieces, .done⟩

end Drive

namespace Compressor

variable {σ : Type} [Compressor σ]

def feedFrom (room : Nat) (session : σ) (rest : Bytes) (read : Nat)
    (pieces : List Bytes) : (calls : Nat) → Option (Drive σ)
  | 0 => none
  | calls + 1 =>
      if rest.isEmpty then some ⟨session, read, pieces, .done⟩
      else
        match compress session rest room with
        | (.error error, session) => some ⟨session, read, pieces, .failed error⟩
        | (.ok transfer, session) =>
            if transfer.IsIdle then some ⟨session, read, pieces, .stalled⟩
            else
              feedFrom room session transfer.rest (read + transfer.consumed)
                (transfer.output :: pieces) calls

def feed (session : σ) (input : Bytes) (room calls : Nat) : Option (Drive σ) :=
  feedFrom room session input 0 [] calls

def drain (session : σ) (room calls : Nat) : Option (Drive σ) :=
  Drive.repeated flush room session [] calls

def finishAll (session : σ) (room calls : Nat) : Option (Drive σ) :=
  Drive.repeated finish room session [] calls

end Compressor

namespace Decompressor

variable {σ : Type} [Decompressor σ]

def slice (rest : Bytes) (left chunk : Nat) : Bytes :=
  if left ≤ chunk then rest else rest.take chunk

def decodeFrom (chunk room : Nat) (session : σ) (rest : Bytes)
    (left read : Nat) (pieces : List Bytes) : (calls : Nat) → Option (Drive σ)
  | 0 => none
  | calls + 1 =>
      if isFinished session then some ⟨session, read, pieces, .done⟩
      else
        match decompress session (slice rest left chunk) room with
        | (.error error, session) => some ⟨session, read, pieces, .failed error⟩
        | (.ok decoded, session) =>
            let taken := decoded.consumed
            let pieces := decoded.output :: pieces
            if decoded.IsIdle && !isFinished session then
              some ⟨session, read, pieces, .stalled⟩
            else
              decodeFrom chunk room session (rest.drop taken) (left - taken)
                (read + taken) pieces calls

def decode (session : σ) (input : Bytes) (chunk room calls : Nat) :
    Option (Drive σ) :=
  decodeFrom chunk room session input input.length 0 [] calls

end Decompressor

end StreamCodec
