import StreamCodec.Bytes

namespace StreamCodec

/-- Adler-32: the sum of the bytes plus one, and the sum of those sums, each
modulo the largest prime below 2^16. -/
structure Adler where
  sum : Nat
  sumOfSums : Nat
  deriving DecidableEq, Repr

namespace Adler

def modulus : Nat := 65521

def start : Adler := ⟨1, 0⟩

def push (checksum : Adler) (byte : UInt8) : Adler :=
  let sum := (checksum.sum + byte.toNat) % modulus
  ⟨sum, (checksum.sumOfSums + sum) % modulus⟩

def value (checksum : Adler) : Nat :=
  checksum.sumOfSums * 65536 + checksum.sum

end Adler

end StreamCodec
