import Mathlib.Algebra.Group.Nat.Defs
import StreamCodec.Bytes

namespace StreamCodec.Bytes

theorem ofLittleEndian_littleEndian (width value : Nat)
    (fits : value < 256 ^ width) :
    ofLittleEndian (littleEndian width value) = value := by
  induction width generalizing value with
  | zero => simp at fits; simp [littleEndian, ofLittleEndian, fits]
  | succ width induction =>
      have smaller : value / 256 < 256 ^ width :=
        (Nat.div_lt_iff_lt_mul (by decide)).2 (by
          simpa [Nat.pow_succ] using fits)
      simp only [littleEndian, ofLittleEndian, induction _ smaller,
        UInt8.toNat_ofNat']
      omega

theorem ofLittleEndian_append (first second : Bytes) :
    ofLittleEndian (first ++ second) =
      ofLittleEndian first +
        256 ^ first.length * ofLittleEndian second := by
  induction first with
  | nil => simp [ofLittleEndian]
  | cons byte rest induction =>
      simp only [List.cons_append, ofLittleEndian, induction,
        List.length_cons, Nat.pow_succ, Nat.mul_add]
      rw [Nat.mul_comm (256 ^ rest.length) 256, Nat.mul_assoc, Nat.add_assoc]

end StreamCodec.Bytes
