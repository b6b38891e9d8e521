namespace StreamCodec

abbrev Bytes := List UInt8

/-- A length in a word of 64 bits, with the carry lost. -/
def byteCount (bytes : Bytes) : UInt64 :=
  .ofNat bytes.length

@[simp] theorem byteCount_nil : byteCount [] = 0 := rfl

theorem byteCount_append (first second : Bytes) :
    byteCount (first ++ second) = byteCount first + byteCount second := by
  simp only [byteCount, List.length_append, UInt64.ofNat_add]

namespace Bytes

/-! Numbers of a fixed number of bytes, least or most significant byte first. -/

def littleEndian : Nat → Nat → Bytes
  | 0, _ => []
  | width + 1, value =>
      UInt8.ofNat (value % 256) :: littleEndian width (value / 256)

def bigEndian (width value : Nat) : Bytes :=
  (littleEndian width value).reverse

def ofLittleEndian : Bytes → Nat
  | [] => 0
  | byte :: rest => byte.toNat + 256 * ofLittleEndian rest

@[simp] theorem length_littleEndian (width value : Nat) :
    (littleEndian width value).length = width := by
  induction width generalizing value with
  | zero => rfl
  | succ width induction => simp [littleEndian, induction]

@[simp] theorem length_bigEndian (width value : Nat) :
    (bigEndian width value).length = width := by
  simp [bigEndian]

end Bytes

end StreamCodec
