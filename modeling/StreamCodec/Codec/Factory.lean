import StreamCodec.Backend.Setting
import StreamCodec.Codec.Accelerated
import StreamCodec.Codec.Software

namespace StreamCodec

open Accelerator

inductive Codec (ε ι δ : Type)
  | software (codec : SoftwareCodec ε ι)
  | accelerated (codec : AcceleratedCodec δ)

namespace Codec

variable {ε ι δ η κ : Type}
variable [DeflateEngine ε] [InflateEngine ι] [Driver δ η κ]

def algorithm : Codec ε ι δ → Algorithm
  | _ => .gzip

/-- The accelerator knows no levels. -/
def level? : Codec ε ι δ → Option Int
  | software codec => some codec.level
  | accelerated _ => none

def format : Codec ε ι δ → Format
  | software codec => codec.format
  | accelerated _ => .gzip

def backend : Codec ε ι δ → Backend.Kind
  | software _ => .software
  | accelerated _ => .accelerated

def driverName? : Codec ε ι δ → Option String
  | software _ => none
  | accelerated codec => some codec.driverName

def maxCompressedLength : Codec ε ι δ → Nat → Nat
  | software codec, length => codec.maxCompressedLength length
  | accelerated codec, length => codec.maxCompressedLength length

def setUp : Codec ε ι δ → Outcome (Codec ε ι δ) Unit
  | software codec =>
      let outcome := codec.setUp
      ⟨outcome.result, software outcome.state, outcome.log⟩
  | accelerated codec => ⟨.ok (), accelerated codec, []⟩

structure Aftermath (ε ι δ η κ : Type) where
  codec : Codec ε ι δ
  registry : Registry κ
  host : η

def compress (codec : Codec ε ι δ) (registry : Registry κ) (host : η)
    (input : Bytes) (room : Nat) : Outcome (Aftermath ε ι δ η κ) Bytes :=
  match codec with
  | software inner =>
      let outcome := inner.compress input room
      ⟨outcome.result, ⟨software outcome.state, registry, host⟩, outcome.log⟩
  | accelerated inner =>
      let outcome := inner.compress registry host input room
      ⟨outcome.result, ⟨codec, outcome.state.1, outcome.state.2⟩, outcome.log⟩

def decompress (codec : Codec ε ι δ) (registry : Registry κ) (host : η)
    (input : Bytes) (room : Nat) : Outcome (Aftermath ε ι δ η κ) Bytes :=
  match codec with
  | software inner =>
      let outcome := inner.decompress input room
      ⟨outcome.result, ⟨software outcome.state, registry, host⟩, outcome.log⟩
  | accelerated inner =>
      let outcome := inner.decompress registry host input room
      ⟨outcome.result, ⟨codec, outcome.state.1, outcome.state.2⟩, outcome.log⟩

def makeCompressor : Codec ε ι δ → Except CodecError (DeflateSession ε)
  | software codec => codec.makeCompressor
  | accelerated codec =>
      .error (.unsupportedOperation (.streamingCompression codec.driverName))

def makeDecompressor : Codec ε ι δ → Except CodecError (InflateSession ι)
  | software codec => codec.makeDecompressor
  | accelerated codec =>
      .error (.unsupportedOperation (.streamingDecompression codec.driverName))

def ofChoice (choice : Backend.Choice δ) (level : Level) (format : Format) :
    Except CodecError (Codec ε ι δ) :=
  match choice with
  | .accelerated driver => .ok (accelerated ⟨driver⟩)
  | .software _ => (SoftwareCodec.new level format).map software

/-- Makes a codec as the setting says. No backend is chosen for an algorithm that
has no codec. -/
def make (build : Backend.Build) (setting : Backend.Setting)
    (installed : Option δ) (algorithm : Algorithm) (level : Level)
    (format : Format) : Except CodecError (Codec ε ι δ) × List Log.Event :=
  match algorithm with
  | .gzip =>
      let choice := setting.choose build installed format
      (ofChoice choice level format, choice.log)
  | .uncompressed => (.error (.notImplemented .uncompressed), [])
  | other => (.error (.notImplemented (.notBuilt other.name)), [])

end Codec

end StreamCodec
