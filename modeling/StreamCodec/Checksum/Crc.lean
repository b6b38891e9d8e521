import StreamCodec.Bytes

namespace StreamCodec

/-- CRC-32 with the reflected polynomial. The register holds the complement of
the checksum, so that leading zero bytes count. -/
structure Crc where
  register : UInt32
  deriving DecidableEq, Repr

namespace Crc

def polynomial : UInt32 := 0xEDB88320

def start : Crc := ⟨0xFFFFFFFF⟩

def divide : Nat → UInt32 → UInt32
  | 0, register => register
  | rounds + 1, register =>
      divide rounds
        (if register &&& 1 = 1 then (register >>> 1) ^^^ polynomial
        else register >>> 1)

def push (checksum : Crc) (byte : UInt8) : Crc :=
  ⟨divide 8 (checksum.register ^^^ byte.toUInt32)⟩

def value (checksum : Crc) : Nat :=
  (checksum.register ^^^ 0xFFFFFFFF).toNat

def pushAll (checksum : Crc) (bytes : Bytes) : Crc :=
  bytes.foldl push checksum

end Crc

end StreamCodec
