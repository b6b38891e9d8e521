import StreamCodec.Proofs.Codec.Inflation
import StreamCodec.Proofs.Deflate.Whole

namespace StreamCodec

open DeflateEngine (Concluding Completed Concludes Streams)

/-! What a codec compresses in one call, any codec of the format decompresses in one
call, if there is room for it. -/

namespace OneShot

variable {ε : Type} [DeflateEngine ε] {level : Fin 10} {format : Format}

private theorem completed_of_deflateFrom {content packed : Bytes} (tooSmall : CodecError)
    (engine : ε) (rest : Bytes) (room : Nat) (written : Bytes) :
    Concluding level format content rest written engine →
      (deflateFrom tooSmall engine rest room written).1 = .ok packed →
      ∃ left, Completed ε level format content packed left := by
  fun_induction deflateFrom tooSmall engine rest room written with
  | case1 =>
      intro _ succeeds
      cases succeeds
  | case2 engine rest room written step next ran written' ended =>
      intro concluding succeeds
      simp only [Except.ok.injEq] at succeeds
      subst succeeds
      exact ⟨_, .of_ended concluding (Engine.run_of_deflate_ok ran) ended⟩
  | case3 =>
      intro _ succeeds
      cases succeeds
  | case4 engine rest room written step next ran written' going busy induction =>
      intro concluding succeeds
      exact induction (concluding.call (Engine.run_of_deflate_ok ran) going) succeeds

end OneShot

namespace SoftwareCodec

variable {ε ι : Type} [DeflateEngine ε] [InflateEngine ι] {level : Fin 10}
  {format : Format} {grammar : Grammar} {codec : SoftwareCodec ε ι}

theorem AsNew.completed_of_compress (asNew : codec.AsNew level format)
    {content packed : Bytes} {room : Nat}
    (succeeds : (codec.compress content room).result = .ok packed) :
    ∃ left, Completed ε level format content packed left := by
  rw [asNew.compress_result] at succeeds
  exact OneShot.completed_of_deflateFrom _ _ content room [] .start succeeds

theorem AsNew.isStream_of_compress (asNew : codec.AsNew level format)
    {content packed : Bytes} {room : Nat}
    (concludes : Concludes ε level format grammar content)
    (succeeds : (codec.compress content room).result = .ok packed) :
    grammar.IsStream packed content := by
  obtain ⟨_, completed⟩ := asNew.completed_of_compress succeeds
  exact concludes.isStream completed

theorem AsNew.exists_isStream_of_compress (asNew : codec.AsNew level format)
    (streams : Streams ε level format grammar) {content packed : Bytes} {room : Nat}
    (succeeds : (codec.compress content room).result = .ok packed) :
    ∃ taken, taken <+: content ∧ grammar.IsStream packed taken := by
  obtain ⟨left, completed⟩ := asNew.completed_of_compress succeeds
  obtain ⟨taken, contentEq, isStream⟩ := streams.isStream completed
  exact ⟨taken, ⟨left, contentEq⟩, isStream⟩

variable [DeflateEngine.Renewable ε] [InflateEngine.Renewable ι]

/-- Whatever either codec did before, what one compressed the other decompresses,
whatever comes behind it, and only too little room is in the way. -/
theorem decompress_of_compress {content packed : Bytes}
    (concludes : Concludes ε level format grammar content)
    (follows : InflateEngine.Follows ι format grammar) {other : SoftwareCodec ε ι}
    {otherLevel : Level} (made : new (.exactly level.val) format = .ok codec)
    (otherMade : new otherLevel format = .ok other)
    (requests otherRequests : List Request) {capacity : Nat}
    (compressed :
      ((codec.afterAll requests).compress content capacity).result = .ok packed)
    (trailing : Bytes) (room : Nat) :
    ((other.afterAll otherRequests).decompress (packed ++ trailing) room).result =
      if room = 0 then .ok []
      else if content.length ≤ room then .ok content
      else
        .error (.bufferTooSmall "gzip" (packed.length + trailing.length) room) := by
  have isStream :=
    ((asNew_of_new_exactly made).afterAll requests).isStream_of_compress concludes
      compressed
  obtain ⟨_, otherAsNew⟩ := asNew_of_new otherMade
  rcases Nat.eq_zero_or_pos room with noRoom | roomy
  · rw [(otherAsNew.afterAll otherRequests).decompress_result, if_pos noRoom,
      if_pos noRoom]
  · have answers := (otherAsNew.afterAll otherRequests).answers_decompress follows
      (packed ++ trailing) roomy
    rw [isStream.read_append trailing, List.length_append] at answers
    rw [if_neg (Nat.ne_of_gt roomy)]
    split
    · next fits => exact answers.ok_of_complete rfl fits
    · next exceeds =>
        exact answers.tooSmall_of_complete rfl (Nat.lt_of_not_le exceeds)

theorem decompress_of_compress_of_exact_fit :
    let content : Bytes := [1, 2, 3]
    let packed : Bytes :=
      [0x1f, 0x8b, 8, 0, 0, 0, 0, 0, 4, 3, 1, 3, 0, 252, 255, 1, 2, 3, 29, 128,
        188, 85, 3, 0, 0, 0]
    let codec : SoftwareCodec Deflate.Encoder Inflate.Decoder := ⟨0, .gzip, .idle⟩
    let other : SoftwareCodec Deflate.Encoder Inflate.Decoder := ⟨9, .gzip, .idle⟩
    let requests : List Request := [.compress [9] 2, .decompress [7] 5]
    DeflateEngine.Renewable Deflate.Encoder ∧
    InflateEngine.Renewable Inflate.Decoder ∧
    Concludes Deflate.Encoder 0 .gzip (Inflate.grammar .gzip) content ∧
    InflateEngine.Follows Inflate.Decoder .gzip (Inflate.grammar .gzip) ∧
    new (.exactly (0 : Fin 10).val) .gzip = .ok codec ∧
    new .default .gzip = .ok other ∧
    ((codec.afterAll requests).compress content 26).result = .ok packed ∧
    ∀ trailing room,
      ((other.afterAll requests).decompress (packed ++ trailing) room).result =
        if room = 0 then .ok []
        else if content.length ≤ room then .ok content
        else
          .error
            (.bufferTooSmall "gzip" (packed.length + trailing.length) room) := by
  intro content packed codec other requests
  have concludes := Deflate.concludes_stored .gzip content
  have follows := Inflate.follows_grammar .gzip
  have made : new (.exactly (0 : Fin 10).val) .gzip = .ok codec := rfl
  have otherMade : new .default .gzip = .ok other := rfl
  have compressed :
      ((codec.afterAll requests).compress content 26).result = .ok packed := by
    decide +kernel
  exact ⟨inferInstance, inferInstance, concludes, follows, made, otherMade,
    compressed, decompress_of_compress concludes follows made otherMade requests
      requests compressed⟩

end SoftwareCodec

end StreamCodec
