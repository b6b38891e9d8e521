import StreamCodec.Accelerator.Registry
import StreamCodec.Session.Basic

namespace StreamCodec

open Accelerator

/-- The gzip codec that leaves the work to an accelerator, one whole stream at a
time. Codecs on one thread share its sessions. -/
structure AcceleratedCodec (δ : Type) where
  driver : δ

namespace AcceleratedCodec

variable {δ η κ : Type} [Driver δ η κ]

def driverName (codec : AcceleratedCodec δ) : String :=
  Driver.name codec.driver

def answer {room : Nat} (codec : AcceleratedCodec δ) (operation : String)
    (outcome : Outcome (Registry κ × η) (Except Failure (Written room))) :
    Outcome (Registry κ × η) Bytes :=
  let result :=
    match outcome.result with
    | .error error => .error error
    | .ok (.error failure) =>
        .error (.backend codec.driverName operation failure.text)
    | .ok (.ok written) => .ok written.val
  ⟨result, outcome.state, outcome.log⟩

def compress (codec : AcceleratedCodec δ) (registry : Registry κ) (host : η)
    (input : Bytes) (room : Nat) : Outcome (Registry κ × η) Bytes :=
  codec.answer "compression"
    (registry.withSession host codec.driver fun session =>
      Driver.compress session input room)

def decompress (codec : AcceleratedCodec δ) (registry : Registry κ) (host : η)
    (input : Bytes) (room : Nat) : Outcome (Registry κ × η) Bytes :=
  if room = 0 then ⟨.ok [], (registry, host), []⟩
  else
    codec.answer "decompression"
      (registry.withSession host codec.driver fun session =>
        Driver.decompress session input room)

def maxCompressedLength (codec : AcceleratedCodec δ) (length : Nat) : Nat :=
  Driver.maxCompressedLength codec.driver length

end AcceleratedCodec

end StreamCodec
