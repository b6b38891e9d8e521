import StreamCodec.Bytes

namespace StreamCodec

/-- Bits in the order in which a deflate stream holds them: the least
significant bit of a byte comes first. -/
abbrev Bits := List Bool

namespace Bits

def ofNat : Nat → Nat → Bits
  | 0, _ => []
  | width + 1, value => (value % 2 == 1) :: ofNat width (value / 2)

def toNat : Bits → Nat
  | [] => 0
  | bit :: rest => bit.toNat + 2 * toNat rest

def ofByte (byte : UInt8) : Bits :=
  ofNat 8 byte.toNat

def byte (bit₀ bit₁ bit₂ bit₃ bit₄ bit₅ bit₆ bit₇ : Bool) : UInt8 :=
  UInt8.ofNat (toNat [bit₀, bit₁, bit₂, bit₃, bit₄, bit₅, bit₆, bit₇])

/-- Packs bits behind the given bytes (latest first) and answers all bytes and
the fewer than eight bits that are left over. -/
def packOnto (written : Bytes) : Bits → Bytes × Bits
  | bit₀ :: bit₁ :: bit₂ :: bit₃ :: bit₄ :: bit₅ :: bit₆ :: bit₇ :: rest =>
      packOnto (byte bit₀ bit₁ bit₂ bit₃ bit₄ bit₅ bit₆ bit₇ :: written) rest
  | carry => (written.reverse, carry)

def pack (bits : Bits) : Bytes × Bits :=
  packOnto [] bits

def padded (bits : Bits) : Bits :=
  bits ++ List.replicate ((8 - bits.length % 8) % 8) false

@[simp] theorem length_ofNat (width value : Nat) :
    (ofNat width value).length = width := by
  induction width generalizing value with
  | zero => rfl
  | succ width induction => simp [ofNat, induction]

@[simp] theorem length_ofByte (byte : UInt8) : (ofByte byte).length = 8 :=
  length_ofNat 8 _

private theorem ofByte_byte (bit₀ bit₁ bit₂ bit₃ bit₄ bit₅ bit₆ bit₇ : Bool) :
    ofByte (byte bit₀ bit₁ bit₂ bit₃ bit₄ bit₅ bit₆ bit₇) =
      [bit₀, bit₁, bit₂, bit₃, bit₄, bit₅, bit₆, bit₇] := by
  revert bit₀ bit₁ bit₂ bit₃ bit₄ bit₅ bit₆ bit₇
  decide

private theorem flatMap_ofByte_packOnto (written : Bytes) (bits : Bits) :
    (packOnto written bits).1.flatMap ofByte ++ (packOnto written bits).2 =
      written.reverse.flatMap ofByte ++ bits := by
  fun_induction packOnto written bits with
  | case1 written bit₀ bit₁ bit₂ bit₃ bit₄ bit₅ bit₆ bit₇ rest induction =>
      rw [induction]
      simp [ofByte_byte]
  | case2 => rfl

theorem flatMap_ofByte_pack (bits : Bits) :
    (pack bits).1.flatMap ofByte ++ (pack bits).2 = bits := by
  simpa [pack] using flatMap_ofByte_packOnto [] bits

end Bits

end StreamCodec
