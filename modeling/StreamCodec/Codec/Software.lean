import StreamCodec.Bound
import StreamCodec.Codec.OneShot
import StreamCodec.Level
import StreamCodec.Outcome
import StreamCodec.Session.Deflating
import StreamCodec.Session.Inflating

namespace StreamCodec

/-- The engine that a codec has at hand. It has one at most, so a change of
direction gives the old one up. -/
inductive Direction (ε ι : Type)
  | idle
  | compressing (engine : ε)
  | decompressing (engine : ι)

def Direction.mode : Direction ε ι → Mode
  | .idle => .idle
  | .compressing _ => .compressing
  | .decompressing _ => .decompressing

structure SoftwareCodec (ε ι : Type) where
  level : Int
  format : Format
  direction : Direction ε ι

namespace SoftwareCodec

variable {ε ι : Type} [DeflateEngine ε] [InflateEngine ι]

def new (level : Level) (format : Format) :
    Except CodecError (SoftwareCodec ε ι) :=
  (level.resolve Algorithm.gzip.profile).map fun level =>
    { level := level, format := format, direction := .idle }

/-- A compressing engine. A newly opened one is announced, and if it cannot be
opened the codec is left idle. -/
def enterCompression (codec : SoftwareCodec ε ι) :
    Outcome (SoftwareCodec ε ι) ε :=
  match codec.direction with
  | .compressing engine => ⟨.ok engine, codec, []⟩
  | direction =>
      let log := [.enteringCompression direction.mode]
      match Engine.openDeflate ε codec.level codec.format with
      | .ok engine =>
          ⟨.ok engine, { codec with direction := .compressing engine }, log⟩
      | .error error => ⟨.error error, { codec with direction := .idle }, log⟩

def enterDecompression (codec : SoftwareCodec ε ι) :
    Outcome (SoftwareCodec ε ι) ι :=
  match codec.direction with
  | .decompressing engine => ⟨.ok engine, codec, []⟩
  | direction =>
      let engine := InflateEngine.start codec.format
      ⟨.ok engine, { codec with direction := .decompressing engine },
        [.enteringDecompression direction.mode]⟩

/-- Opens both engines once. The decompressing one stays. -/
def setUp (codec : SoftwareCodec ε ι) : Outcome (SoftwareCodec ε ι) Unit :=
  match codec.enterCompression with
  | ⟨.error error, codec, log⟩ => ⟨.error error, codec, log⟩
  | ⟨.ok _, codec, log⟩ =>
      let entered := codec.enterDecompression
      ⟨entered.result.map fun _ => (), entered.state, log ++ entered.log⟩

/-- However the call ends, the engine is ready for the next stream. -/
def compress (codec : SoftwareCodec ε ι) (input : Bytes) (room : Nat) :
    Outcome (SoftwareCodec ε ι) Bytes :=
  match codec.enterCompression with
  | ⟨.error error, codec, log⟩ => ⟨.error error, codec, log⟩
  | ⟨.ok engine, codec, log⟩ =>
      match OneShot.deflate engine input room with
      | (result, engine) =>
          ⟨result,
            { codec with direction := .compressing (DeflateEngine.reset engine) },
            log⟩

def decompress (codec : SoftwareCodec ε ι) (input : Bytes) (room : Nat) :
    Outcome (SoftwareCodec ε ι) Bytes :=
  if room = 0 then ⟨.ok [], codec, []⟩
  else
    match codec.enterDecompression with
    | ⟨.error error, codec, log⟩ => ⟨.error error, codec, log⟩
    | ⟨.ok engine, codec, log⟩ =>
        match OneShot.inflate engine input room with
        | (result, engine) =>
            ⟨result,
              { codec with
                direction := .decompressing (Engine.restart codec.format engine) },
              log⟩

def maxCompressedLength (codec : SoftwareCodec ε ι) (length : Nat) : Nat :=
  StreamCodec.maxCompressedLength codec.format length

def makeCompressor (codec : SoftwareCodec ε ι) :
    Except CodecError (DeflateSession ε) :=
  match (DeflateSession.new codec.level).setUp codec.format with
  | (.ok (), session) => .ok session
  | (.error error, _) => .error error

def makeDecompressor (codec : SoftwareCodec ε ι) :
    Except CodecError (InflateSession ι) :=
  match (InflateSession.new codec.format).setUp with
  | (.ok (), session) => .ok session
  | (.error error, _) => .error error

end SoftwareCodec

end StreamCodec
