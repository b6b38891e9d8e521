import StreamCodec.Deflate.BlockWriter
import StreamCodec.Proofs.Inflate.Laws
import StreamCodec.Proofs.Numbers

namespace StreamCodec.Inflate.Decoder

open Block

/-! The parts of a stream that are made of whole bytes. -/

variable {decoder : Decoder} {written : Bytes}

private theorem absorbs_byte (wants : decoder.phase.wantsByte = true) (written : Bytes)
    (byte : UInt8) :
    Absorbs decoder written [byte] (decoder.accept byte written).decoder
      (decoder.accept byte written).written :=
  .accept rfl wants (absorbs_of_settle rfl)

private theorem absorbs_octets (decoder : Decoder) {field : Field} (read bytes : Bytes)
    (byte : UInt8) (phaseEq : decoder.phase = .octets field (bytes.length + 1) read)
    (written : Bytes) :
    Absorbs decoder written (bytes ++ [byte])
      (({ decoder with
          phase := .octets field 1 (bytes.reverse ++ read) } : Decoder).closeField
        field (read.reverse ++ bytes ++ [byte])) written := by
  induction bytes generalizing decoder read with
  | nil =>
      have absorbs := absorbs_byte (by rw [phaseEq]; rfl) written byte
      have same : decoder =
          { decoder with phase := .octets field 1 read } := by
        rw [List.length_nil, Nat.zero_add] at phaseEq
        rw [← phaseEq]
      simp only [accept, phaseEq, takeByte, List.length_nil, Nat.zero_add,
        Nat.le_refl, if_true, List.reverse_cons] at absorbs
      simpa only [List.nil_append, List.reverse_nil, List.append_nil, ← same]
        using absorbs
  | cons first bytes induction =>
      have absorbs := absorbs_byte (by rw [phaseEq]; rfl) written first
      have more : ¬bytes.length + 1 + 1 ≤ 1 := by omega
      simp only [accept, phaseEq, takeByte, List.length_cons, if_neg more,
        Nat.add_sub_cancel] at absorbs
      have later := absorbs.trans (induction
        { decoder with phase := .octets field (bytes.length + 1) (first :: read) }
        (first :: read) rfl)
      simpa only [List.cons_append, List.nil_append, List.reverse_cons,
        List.append_assoc, List.singleton_append] using later

theorem absorbs_field {field : Field} {bytes : Bytes} (nonempty : bytes ≠ [])
    (phaseEq : decoder.phase = .octets field bytes.length []) (written : Bytes) :
    ∃ read,
      Absorbs decoder written bytes
        (({ decoder with phase := .octets field 1 read } : Decoder).closeField
          field bytes) written := by
  have whole := List.dropLast_concat_getLast nonempty
  have lengthEq : bytes.length = bytes.dropLast.length + 1 := by
    rw [List.length_dropLast]
    have positive := List.length_pos_iff.2 nonempty
    omega
  rw [lengthEq] at phaseEq
  have absorbs :=
    absorbs_octets decoder [] bytes.dropLast (bytes.getLast nonempty) phaseEq written
  rw [List.reverse_nil, List.nil_append, whole] at absorbs
  exact ⟨_, absorbs⟩

structure AtBlock (decoder : Decoder) (format : Format) (content : Bytes) :
    Prop where
  phase_eq : decoder.phase = .bits .blockHead 3 []
  digest_eq : decoder.digest = Digest.ofBytes format content

private theorem closeField_zlibHeader (decoder : Decoder) (level : Fin 10) :
    decoder.closeField .zlibHead (Deflate.zlibHeader level) =
      decoder.openBlock := by
  have accepted : ∀ level : Fin 10,
      let value := Bytes.ofLittleEndian (Deflate.zlibHeader level)
      ¬(value % 256 * 256 + value / 256) % 31 ≠ 0 ∧ ¬value % 16 ≠ 8 ∧
        ¬value % 256 / 16 > 7 ∧ ¬value.testBit 13 = true := by
    decide
  obtain ⟨check, method, window, dictionary⟩ := accepted level
  simp only [closeField, if_neg check, if_neg method, if_neg window,
    if_neg dictionary]

private theorem absorbs_headerField (field : HeaderField) {bytes : Bytes} {next : Phase}
    (nonempty : bytes ≠ [])
    (phaseEq : decoder.phase = .octets (.header field) bytes.length [])
    (closes : ∀ decoder : Decoder,
      (decoder.closeHeaderField (Bytes.ofLittleEndian bytes) field).phase = next ∧
        (decoder.closeHeaderField (Bytes.ofLittleEndian bytes) field).digest =
          decoder.digest) :
    ∃ later, Absorbs decoder [] bytes later [] ∧ later.phase = next ∧
      later.digest = decoder.digest := by
  obtain ⟨read, absorbs⟩ := absorbs_field nonempty phaseEq []
  exact ⟨_, absorbs, (closes _).1, (closes _).2⟩

theorem absorbs_gzipHeader (level : Fin 10) :
    ∃ decoder, Absorbs (start .gzip) [] (Deflate.gzipHeader level) decoder [] ∧
      decoder.AtBlock .gzip [] := by
  let noFlags : HeaderFlags := ⟨false, false, false, false⟩
  have magicEq : Bytes.ofLittleEndian [0x1f, 0x8b] = 0x8b1f := by decide
  have methodEq : Bytes.ofLittleEndian [8, 0] = 8 := by decide
  have flagsEq : HeaderFlags.ofNat (8 / 256) = noFlags := by decide
  obtain ⟨first, magic, firstPhase, firstDigest⟩ :=
    absorbs_headerField .magic (List.cons_ne_nil 0x1f [0x8b])
      (show (start .gzip).phase = _ from rfl) fun decoder => by
        rw [magicEq]
        exact ⟨rfl, rfl⟩
  obtain ⟨second, method, secondPhase, secondDigest⟩ :=
    absorbs_headerField .method (List.cons_ne_nil 8 [0]) firstPhase
      fun decoder => by
        simp only [methodEq, closeHeaderField, flagsEq]
        exact ⟨rfl, rfl⟩
  obtain ⟨third, time, thirdPhase, thirdDigest⟩ :=
    absorbs_headerField (.time noFlags) (List.cons_ne_nil 0 [0, 0, 0])
      secondPhase fun decoder => ⟨rfl, rfl⟩
  obtain ⟨last, origin, lastPhase, lastDigest⟩ :=
    absorbs_headerField (.origin noFlags)
      (List.cons_ne_nil (if level.val = 9 then 2 else if level.val ≤ 1 then 4 else 0)
        [3]) thirdPhase fun decoder => ⟨rfl, rfl⟩
  refine ⟨last, ((magic.trans method).trans time).trans origin, lastPhase, ?_⟩
  rw [lastDigest, thirdDigest, secondDigest, firstDigest]
  rfl

theorem absorbs_header (level : Fin 10) (format : Format) :
    ∃ decoder,
      Absorbs (start format) [] (Deflate.header level format) decoder [] ∧
        decoder.AtBlock format [] := by
  cases format with
  | deflate => exact ⟨_, absorbs_of_settle rfl, rfl, rfl⟩
  | zlib =>
      have lengthEq : (Deflate.zlibHeader level).length = 2 :=
        Deflate.length_header level .zlib
      have nonempty := List.ne_nil_of_length_eq_add_one lengthEq
      obtain ⟨read, absorbs⟩ := absorbs_field nonempty
        (show (start .zlib).phase = _ by rw [lengthEq]; rfl) []
      rw [closeField_zlibHeader] at absorbs
      exact ⟨_, absorbs, rfl, rfl⟩
  | gzip => exact absorbs_gzipHeader level

def storedBlock (last : Bool) (content : Bytes) : Bytes :=
  [if last then 1 else 0] ++
    (Bytes.littleEndian 2 content.length ++
      Bytes.littleEndian 2 (Deflate.blockLimit - content.length)) ++ content

theorem absorbs_storedHead (phaseEq : decoder.phase = .bits .blockHead 3 [])
    (last : Bool) (written : Bytes) :
    ∃ opened, Absorbs decoder written [if last then 1 else 0] opened written ∧
      opened.phase = .octets .storedLengths 4 [] ∧ opened.last = last ∧
      opened.digest = decoder.digest := by
  have absorbs := absorbs_byte (by rw [phaseEq]; rfl) written
    (if last then 1 else 0)
  have bits : Bits.ofByte (if last then 1 else 0) =
      last :: List.replicate 7 false := by
    cases last <;> decide
  simp only [accept, phaseEq, takeByte, bits] at absorbs
  refine ⟨_, absorbs, ?_⟩
  cases last
  all_goals
    simp [takeBits, takeBit, phaseEq, closeNumber, expect, Bits.toNat,
      List.replicate]

private theorem closeField_storedLengths (decoder : Decoder) {length : Nat}
    (fits : length ≤ Deflate.blockLimit) :
    decoder.closeField .storedLengths
        (Bytes.littleEndian 2 length ++
          Bytes.littleEndian 2 (Deflate.blockLimit - length)) =
      if length = 0 then decoder.closeBlock
      else { decoder with phase := .stored length } := by
  unfold Deflate.blockLimit at fits ⊢
  have value : Bytes.ofLittleEndian
      (Bytes.littleEndian 2 length ++ Bytes.littleEndian 2 (65535 - length)) =
      length + 65536 * (65535 - length) := by
    have weight : 256 ^ (Bytes.littleEndian 2 length).length = 65536 := by simp
    rw [Bytes.ofLittleEndian_append, weight,
      Bytes.ofLittleEndian_littleEndian 2 length (by omega),
      Bytes.ofLittleEndian_littleEndian 2 (65535 - length) (by omega)]
  have low : (length + 65536 * (65535 - length)) % 65536 = length := by omega
  have high : (length + 65536 * (65535 - length)) / 65536 = 65535 - length := by
    omega
  have sound : ¬length + (65535 - length) ≠ 65535 := by omega
  simp only [closeField, value, low, high, if_neg sound]

theorem absorbs_content (decoder : Decoder) {content : Bytes}
    (nonempty : content ≠ []) (phaseEq : decoder.phase = .stored content.length)
    (written : Bytes) :
    ∃ recorded : Decoder,
      Absorbs decoder written content recorded.closeBlock
          (content.reverse ++ written) ∧
        recorded.last = decoder.last ∧
        recorded.digest = content.foldl Digest.push decoder.digest := by
  induction content generalizing decoder written with
  | nil => exact (nonempty rfl).elim
  | cons byte rest induction =>
      have absorbs := absorbs_byte (by rw [phaseEq]; rfl) written byte
      simp only [accept, phaseEq, takeStored, List.length_cons] at absorbs
      rcases Decidable.em (rest = []) with rfl | more
      · simp only [List.length_nil, Nat.zero_add, Nat.le_refl, if_true] at absorbs
        exact ⟨_, absorbs, rfl, rfl⟩
      · have positive := List.length_pos_iff.2 more
        rw [if_neg (by omega), Nat.add_sub_cancel] at absorbs
        obtain ⟨recorded, later, lastEq, digestEq⟩ :=
          induction (decoder.record byte (.stored rest.length)) more rfl
            (byte :: written)
        refine ⟨recorded, ?_, lastEq, digestEq⟩
        have together := absorbs.trans later
        simpa only [List.singleton_append, List.reverse_cons, List.append_assoc]
          using together

variable {format : Format} {before : Bytes}

theorem absorbs_storedLengths {length : Nat}
    (phaseEq : decoder.phase = .octets .storedLengths 4 [])
    (fits : length ≤ Deflate.blockLimit) (written : Bytes) :
    ∃ closing : Decoder,
      Absorbs decoder written
          (Bytes.littleEndian 2 length ++
            Bytes.littleEndian 2 (Deflate.blockLimit - length))
          (if length = 0 then closing.closeBlock
            else { closing with phase := .stored length }) written ∧
        closing.last = decoder.last ∧ closing.digest = decoder.digest := by
  have lengthEq : (Bytes.littleEndian 2 length ++
      Bytes.littleEndian 2 (Deflate.blockLimit - length)).length = 4 := by
    simp only [List.length_append, Bytes.length_littleEndian]
  have nonempty := List.ne_nil_of_length_eq_add_one lengthEq
  rw [← lengthEq] at phaseEq
  obtain ⟨read, absorbs⟩ := absorbs_field nonempty phaseEq written
  rw [closeField_storedLengths _ fits] at absorbs
  exact ⟨_, absorbs, rfl, rfl⟩

theorem AtBlock.absorbs_storedBlock (atBlock : decoder.AtBlock format before)
    (last : Bool) {content : Bytes} (fits : content.length ≤ Deflate.blockLimit)
    (written : Bytes) :
    ∃ recorded : Decoder,
      Absorbs decoder written (storedBlock last content) recorded.closeBlock
          (content.reverse ++ written) ∧
        recorded.last = last ∧
        recorded.digest = Digest.ofBytes format (before ++ content) := by
  obtain ⟨opened, head, openedPhase, openedLast, openedDigest⟩ :=
    absorbs_storedHead atBlock.phase_eq last written
  obtain ⟨closing, lengths, closingLast, closingDigest⟩ :=
    absorbs_storedLengths openedPhase fits written
  have lastEq := closingLast.trans openedLast
  rw [Digest.ofBytes_append, ← atBlock.digest_eq, ← openedDigest,
    ← closingDigest]
  rcases content with _ | ⟨byte, rest⟩
  · refine ⟨closing, ?_, lastEq, rfl⟩
    have absorbs := head.trans lengths
    simpa only [storedBlock, List.length_nil, if_true, List.append_nil,
      List.reverse_nil, List.nil_append] using absorbs
  · rw [if_neg (by simp)] at lengths
    obtain ⟨recorded, stored, recordedLast, recordedDigest⟩ :=
      absorbs_content { closing with phase := .stored (byte :: rest).length }
        (List.cons_ne_nil byte rest) rfl written
    exact ⟨recorded, (head.trans lengths).trans stored, recordedLast.trans lastEq,
      recordedDigest⟩

theorem atBlock_closeBlock {content : Bytes} (more : decoder.last = false)
    (digestEq : decoder.digest = Digest.ofBytes format content) :
    decoder.closeBlock.AtBlock format content := by
  simp only [closeBlock, more, Bool.not_false, if_true]
  exact ⟨rfl, digestEq⟩

private theorem trailer_cases (digest : Digest) :
    digest.checkBytes = [] ∧ digest.sizeBytes = [] ∨
      digest.checkBytes.length = 4 ∧
        (digest.sizeBytes = [] ∨ digest.sizeBytes.length = 4) := by
  cases digest with
  | unchecked => exact .inl ⟨rfl, rfl⟩
  | adler => exact .inr ⟨Bytes.length_bigEndian 4 _, .inl rfl⟩
  | crc =>
      exact .inr ⟨Bytes.length_littleEndian 4 _,
        .inr (Bytes.length_littleEndian 4 _)⟩

private theorem absorbs_contentLength (decoder : Decoder)
    (phaseEq : decoder.phase = .octets .contentLength 4 [])
    (lengthEq : decoder.digest.sizeBytes.length = 4) (written : Bytes) :
    ∃ finished, Absorbs decoder written decoder.digest.sizeBytes finished written ∧
      finished.phase = .finished := by
  obtain ⟨_, absorbs⟩ := absorbs_field (List.ne_nil_of_length_eq_add_one lengthEq)
    (lengthEq ▸ phaseEq) written
  simp only [closeField, ne_eq, not_true, if_false] at absorbs
  exact ⟨_, absorbs, rfl⟩

private theorem absorbs_contentChecksum (decoder : Decoder)
    (phaseEq : decoder.phase = .octets .contentChecksum 4 [])
    (lengthEq : decoder.digest.checkBytes.length = 4)
    (sizeLength : decoder.digest.sizeBytes = [] ∨
      decoder.digest.sizeBytes.length = 4) (written : Bytes) :
    ∃ finished, Absorbs decoder written decoder.digest.trailer finished written ∧
      finished.phase = .finished := by
  obtain ⟨read, check⟩ := absorbs_field (List.ne_nil_of_length_eq_add_one lengthEq)
    (lengthEq ▸ phaseEq) written
  simp only [closeField, ne_eq, not_true, if_false] at check
  unfold Digest.trailer
  rcases sizeLength with noSize | sizeLength
  · rw [noSize, List.append_nil]
    rw [noSize, List.isEmpty_nil, if_pos rfl] at check
    exact ⟨_, check, rfl⟩
  · rw [if_neg (by simpa using List.ne_nil_of_length_eq_add_one sizeLength)] at check
    obtain ⟨finished, sized, finishedEq⟩ :=
      absorbs_contentLength
        (expect { decoder with phase := .octets .contentChecksum 1 read }
          .contentLength 4) rfl sizeLength written
    exact ⟨finished, check.trans sized, finishedEq⟩

theorem absorbs_trailer (final : decoder.last = true) (written : Bytes) :
    ∃ finished, Absorbs decoder.closeBlock written decoder.digest.trailer finished
        written ∧ finished.phase = .finished := by
  simp only [closeBlock, final, Bool.not_true, Bool.false_eq_true, if_false]
  rcases trailer_cases decoder.digest with
    ⟨noCheck, noSize⟩ | ⟨checkLength, sizeLength⟩
  · rw [Digest.trailer, noCheck, noSize]
    exact ⟨_, absorbs_of_settle rfl, rfl⟩
  · rw [if_neg (by simpa using List.ne_nil_of_length_eq_add_one checkLength)]
    exact absorbs_contentChecksum (decoder.expect .contentChecksum 4) rfl
      checkLength sizeLength written

end StreamCodec.Inflate.Decoder
