import StreamCodec.Checksum.Adler
import StreamCodec.Checksum.Crc
import StreamCodec.Format

namespace StreamCodec

inductive Digest
  | unchecked
  | adler (checksum : Adler)
  | crc (checksum : Crc) (size : Nat)
  deriving DecidableEq, Repr

namespace Digest

def start : Format → Digest
  | .deflate => .unchecked
  | .zlib => .adler Adler.start
  | .gzip => .crc Crc.start 0

def push : Digest → UInt8 → Digest
  | .unchecked, _ => .unchecked
  | .adler checksum, byte => .adler (checksum.push byte)
  | .crc checksum size, byte => .crc (checksum.push byte) (size + 1)

def ofBytes (format : Format) (bytes : Bytes) : Digest :=
  bytes.foldl push (start format)

def checkBytes : Digest → Bytes
  | .unchecked => []
  | .adler checksum => Bytes.bigEndian 4 checksum.value
  | .crc checksum _ => Bytes.littleEndian 4 checksum.value

def sizeBytes : Digest → Bytes
  | .crc _ size => Bytes.littleEndian 4 size
  | _ => []

def trailer (digest : Digest) : Bytes :=
  digest.checkBytes ++ digest.sizeBytes

theorem ofBytes_append (format : Format) (first second : Bytes) :
    ofBytes format (first ++ second) =
      second.foldl push (ofBytes format first) := by
  simp [ofBytes]

end Digest

end StreamCodec
