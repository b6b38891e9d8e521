import StreamCodec.Proofs.Codec.Independence
import StreamCodec.Proofs.Deflate.Whole

namespace StreamCodec

open DeflateEngine (Concluding Compact streamBound streamBound_eq)

/-! The length that a codec answers is the exact bound unless that does not fit a
word, and a buffer of that length is enough for any stream. -/

private theorem addLengths_addLengths (first second third : Nat) :
    addLengths (addLengths first second) third =
      addLengths (first + second) third := by
  unfold addLengths
  omega

private theorem addLengths_share {sum length : Nat} (within : length ≤ sum)
    (more share : Nat) (small : more ≤ largestLength / share) :
    addLengths sum (addLengths length more / share) =
      addLengths sum ((length + more) / share) := by
  unfold addLengths
  rcases Nat.le_total (length + more) largestLength with fits | exceeds
  · rw [Nat.min_eq_left fits]
  · have grown := Nat.div_le_div_right exceeds (c := share)
    rw [Nat.min_eq_right exceeds, Nat.min_eq_right (by omega),
      Nat.min_eq_right (by omega)]

theorem maxCompressedLength_eq_min (format : Format) (length : Nat) :
    maxCompressedLength format length =
      min (streamBound format length) largestLength := by
  have eighth := addLengths_share (Nat.le_refl length) 7 8 (by decide)
  have sixtyFourth :=
    addLengths_share (Nat.le_add_right length ((length + 7) / 8)) 63 64 (by decide)
  simp only [maxCompressedLength, deflateBound, Nat.shiftRight_eq_div_pow,
    Nat.reducePow, eighth, addLengths_addLengths, sixtyFourth]
  rfl

def largestBuffer : Nat := 2 ^ 63 - 1

private theorem maxCompressedLength_of_fits (format : Format) {length : Nat}
    (fits : length ≤ largestBuffer) :
    maxCompressedLength format length = streamBound format length := by
  have wrapper : format.wrapperLength ≤ 18 := by cases format <;> decide
  have within : streamBound format length ≤ largestLength := by
    simp only [streamBound_eq, boundSlack, largestBuffer, largestLength] at fits ⊢
    omega
  rw [maxCompressedLength_eq_min, Nat.min_eq_left within]

namespace OneShot

variable {ε : Type} [DeflateEngine ε] {level : Fin 10} {format : Format}

theorem ok_of_deflateFrom {content : Bytes} (compact : Compact ε level format content)
    (tooSmall : CodecError) (engine : ε) (rest : Bytes) (room : Nat)
    (written : Bytes) :
    Concluding level format content rest written engine →
      streamBound format content.length ≤ written.length + room →
      ∃ packed, (deflateFrom tooSmall engine rest room written).1 = .ok packed ∧
        packed.length ≤ streamBound format content.length := by
  fun_induction deflateFrom tooSmall engine rest room written with
  | case1 engine rest room written error next ran =>
      intro concluding _
      obtain ⟨step, later, succeeds⟩ := compact.succeeds room concluding
      rw [Engine.deflate_of_run "deflate" succeeds] at ran
      cases ran
  | case2 engine rest room written step next ran written' ended =>
      intro concluding _
      have ran := Engine.run_of_deflate_ok ran
      exact ⟨_, rfl, compact.ended_le (.of_ended concluding ran ended)⟩
  | case3 engine rest room written step next ran going idle =>
      intro concluding enough
      have full := compact.stuck concluding (Engine.run_of_deflate_ok ran) going idle
      have more := compact.going_lt concluding
      omega
  | case4 engine rest room written step next ran written' going busy induction =>
      intro concluding enough
      have onward := concluding.call (Engine.run_of_deflate_ok ran) going
      refine induction onward (Nat.le_trans enough ?_)
      have fits := step.output_le
      simp only [written', List.length_append, Transfer.roomLeft]
      omega

end OneShot

namespace SoftwareCodec

variable {ε ι : Type} [DeflateEngine ε] [InflateEngine ι] {level : Fin 10}
  {format : Format} {codec : SoftwareCodec ε ι}

theorem AsNew.maxCompressedLength_eq (asNew : codec.AsNew level format) :
    codec.maxCompressedLength = StreamCodec.maxCompressedLength format := by
  funext length
  rw [SoftwareCodec.maxCompressedLength, asNew.format_eq]

theorem AsNew.ok_of_compress (asNew : codec.AsNew level format)
    {content : Bytes} (compact : Compact ε level format content) {room : Nat}
    (enough : streamBound format content.length ≤ room) :
    ∃ packed, (codec.compress content room).result = .ok packed ∧
      packed.length ≤ streamBound format content.length := by
  rw [asNew.compress_result]
  apply OneShot.ok_of_deflateFrom compact _ _ content room [] .start
  rwa [List.length_nil, Nat.zero_add]

variable [DeflateEngine.Renewable ε] [InflateEngine.Renewable ι]

/-- Whatever the codec did before, its bound is the exact sum cut off at a word, grows
with the length, and is room enough for the content. -/
theorem maxCompressedLength_suffices
    (made : new (.exactly level.val) format = .ok codec)
    (requests : List Request) :
    let reached := codec.afterAll requests
    (∀ length, reached.maxCompressedLength length =
      min (2 ^ 64 - 1)
        (length + length ⌈/⌉ 8 + length ⌈/⌉ 64 + 5 +
          (match format with
            | .deflate => 0
            | .zlib => 6
            | .gzip => 18) + 12)) ∧
    Monotone reached.maxCompressedLength ∧
    ∀ (content : Bytes) (room : Nat), Compact ε level format content →
      content.length ≤ largestBuffer →
      reached.maxCompressedLength content.length ≤ room →
      ∃ packed, (reached.compress content room).result = .ok packed ∧
        packed.length ≤ reached.maxCompressedLength content.length := by
  intro reached
  have asNew : reached.AsNew level format :=
    (asNew_of_new_exactly made).afterAll requests
  rw [asNew.maxCompressedLength_eq]
  refine ⟨fun length => ?_, fun first second le => ?_,
    fun content room compact fits enough => ?_⟩
  · rw [maxCompressedLength_eq_min, Nat.min_comm]
    cases format <;> rfl
  · rw [maxCompressedLength_eq_min, maxCompressedLength_eq_min]
    have mono := DeflateEngine.streamBound_mono format le
    omega
  · rw [maxCompressedLength_of_fits format fits] at enough ⊢
    exact asNew.ok_of_compress compact enough

theorem maxCompressedLength_suffices_of_failures :
    let codec : SoftwareCodec Deflate.Encoder Inflate.Decoder := ⟨6, .zlib, .idle⟩
    let reached := codec.afterAll [.decompress [7] 5, .compress [1, 2] 3]
    DeflateEngine.Renewable Deflate.Encoder ∧
    InflateEngine.Renewable Inflate.Decoder ∧
    new (.exactly (6 : Fin 10).val) .zlib = .ok codec ∧
    Compact Deflate.Encoder 6 .zlib [3, 1, 4, 1, 5, 9, 2, 6, 5] ∧
    (∀ length, reached.maxCompressedLength length =
      min (2 ^ 64 - 1) (length + length ⌈/⌉ 8 + length ⌈/⌉ 64 + 5 + 6 + 12)) ∧
    Monotone reached.maxCompressedLength ∧
    reached.maxCompressedLength 9 = 35 ∧
    ∃ packed,
      (reached.compress [3, 1, 4, 1, 5, 9, 2, 6, 5] 35).result = .ok packed ∧
        packed.length ≤ 35 := by
  intro codec reached
  have made : new (.exactly (6 : Fin 10).val) .zlib = .ok codec := rfl
  have compact := Deflate.compact_encoder 6 .zlib [3, 1, 4, 1, 5, 9, 2, 6, 5]
  obtain ⟨sum, mono, enough⟩ :=
    maxCompressedLength_suffices made [.decompress [7] 5, .compress [1, 2] 3]
  have bound : reached.maxCompressedLength 9 = 35 := sum 9
  refine ⟨inferInstance, inferInstance, made, compact, sum, mono, bound, ?_⟩
  rw [← bound]
  exact enough _ _ compact (by decide) (Nat.le_refl _)

end SoftwareCodec

end StreamCodec
