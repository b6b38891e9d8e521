import StreamCodec.Error
import StreamCodec.Text.Ascii
import StreamCodec.Text.Blank
import StreamCodec.Text.Hex

namespace StreamCodec

/-- The compression algorithms that data may be tagged with. Only gzip has a
codec here. -/
inductive Algorithm
  | uncompressed
  | snappy
  | gzip
  | brotli
  | zstd
  | lz4Raw
  | lz4Frame
  | lzo
  | bz2
  deriving DecidableEq, Repr

namespace Algorithm

def all : List Algorithm :=
  [uncompressed, snappy, gzip, brotli, zstd, lz4Raw, lz4Frame, lzo, bz2]

/-- The stable number in configuration and on the wire. -/
def id : Algorithm → Nat
  | uncompressed => 0
  | snappy => 1
  | gzip => 2
  | brotli => 3
  | zstd => 4
  | lz4Raw => 5
  | lz4Frame => 6
  | lzo => 7
  | bz2 => 8

def name : Algorithm → String
  | uncompressed => "uncompressed"
  | snappy => "snappy"
  | gzip => "gzip"
  | brotli => "brotli"
  | zstd => "zstd"
  | lz4Raw => "lz4_raw"
  | lz4Frame => "lz4"
  | lzo => "lzo"
  | bz2 => "bz2"

def names : Algorithm → List String
  | uncompressed => ["none", "uncompressed"]
  | algorithm => [algorithm.name]

def ofId (id : Nat) : Except CodecError Algorithm :=
  match all.find? (fun algorithm => algorithm.id == id) with
  | some algorithm => .ok algorithm
  | none => .error (.unknownCodec ("0x" ++ Text.hex 4 id))

/-- Reads a name. Blanks around it and the case of its letters do not matter. -/
def ofName (name : String) : Except CodecError Algorithm :=
  let plain := Text.lowered (Text.trim name.toList)
  let known (algorithm : Algorithm) : Bool :=
    algorithm.names.any fun candidate => candidate.toList == plain
  match all.find? known with
  | some algorithm => .ok algorithm
  | none => .error (.unknownCodec name)

end Algorithm

structure Profile where
  name : String
  available : Bool
  supportsLevel : Bool
  defaultLevel : Int
  minimumLevel : Int
  maximumLevel : Int
  deriving DecidableEq, Repr

namespace Algorithm

def profile : Algorithm → Profile
  | gzip =>
      { name := name gzip, available := true, supportsLevel := true,
        defaultLevel := 9, minimumLevel := 0, maximumLevel := 9 }
  | algorithm =>
      { name := algorithm.name, available := false
        supportsLevel := [brotli, zstd, lz4Frame, bz2].contains algorithm
        defaultLevel := 0, minimumLevel := 0, maximumLevel := 0 }

def isAvailable (algorithm : Algorithm) : Bool :=
  algorithm.profile.available

def supportsLevel (algorithm : Algorithm) : Bool :=
  algorithm.profile.supportsLevel

def leveledProfile (algorithm : Algorithm) : Except CodecError Profile :=
  let profile := algorithm.profile
  if !profile.supportsLevel then
    .error (.unsupportedOperation (.level profile.name))
  else if !profile.available then
    .error (.notImplemented (.notBuilt profile.name))
  else .ok profile

def defaultLevel (algorithm : Algorithm) : Except CodecError Int :=
  algorithm.leveledProfile.map Profile.defaultLevel

def minimumLevel (algorithm : Algorithm) : Except CodecError Int :=
  algorithm.leveledProfile.map Profile.minimumLevel

def maximumLevel (algorithm : Algorithm) : Except CodecError Int :=
  algorithm.leveledProfile.map Profile.maximumLevel

end Algorithm

end StreamCodec
