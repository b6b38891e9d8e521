import StreamCodec.Proofs.Codec.RoundTrip
import StreamCodec.Proofs.Inflate.Laws

namespace StreamCodec.SoftwareCodec

open DeflateEngine (Concludes Streams)

/-! More room changes no verdict on a stream. What is left of a stream that breaks off is
corrupt, unless the room is used up at the same moment. -/

variable {ε ι : Type} [DeflateEngine ε] [InflateEngine ι] {level : Fin 10}
  {format : Format} {grammar : Grammar} {codec other : SoftwareCodec ε ι}

theorem AsNew.ok_of_larger {otherLevel : Fin 10} (asNew : codec.AsNew level format)
    (otherAsNew : other.AsNew otherLevel format)
    (follows : InflateEngine.Follows ι format grammar) {input content : Bytes}
    {room larger : Nat} (roomy : 0 < room) (le : room ≤ larger)
    (succeeds : (codec.decompress input room).result = .ok content) :
    (other.decompress input larger).result = .ok content := by
  have answers := asNew.answers_decompress follows input roomy
  have later :=
    otherAsNew.answers_decompress follows input (Nat.lt_of_lt_of_le roomy le)
  rw [succeeds] at answers
  exact answers.ok_of_larger later le

theorem AsNew.corrupt_of_larger {otherLevel : Fin 10} (asNew : codec.AsNew level format)
    (otherAsNew : other.AsNew otherLevel format)
    (follows : InflateEngine.Follows ι format grammar) {input : Bytes}
    {room larger : Nat} {corruption : Corruption} (roomy : 0 < room)
    (le : room ≤ larger)
    (corrupt : (codec.decompress input room).result =
      .error (.corruptInput corruption)) :
    ∃ corruption,
      (other.decompress input larger).result = .error (.corruptInput corruption) := by
  rcases Nat.eq_or_lt_of_le le with rfl | lt
  · refine ⟨corruption, ?_⟩
    rw [otherAsNew.decompress_result, ← asNew.decompress_result]
    exact corrupt
  · have answers := asNew.answers_decompress follows input roomy
    have later := otherAsNew.answers_decompress follows input (Nat.lt_trans roomy lt)
    rw [corrupt] at answers
    exact answers.corrupt_of_larger later lt

variable [DeflateEngine.Renewable ε] [InflateEngine.Renewable ι]

/-- Whatever either codec did before: there is content, corruption or too little room, the
first two stay as they are in more room, and in enough room it is one of them. -/
theorem decompress_settles (follows : InflateEngine.Follows ι format grammar)
    {request otherRequest : Level} (made : new request format = .ok codec)
    (otherMade : new otherRequest format = .ok other)
    (requests otherRequests : List Request) (input : Bytes) {room larger : Nat}
    (roomy : 0 < room) (le : room ≤ larger) :
    let answer := ((codec.afterAll requests).decompress input room).result
    let later := ((other.afterAll otherRequests).decompress input larger).result
    ((∃ content, answer = .ok content ∧ content.length ≤ room) ∨
      answer = .error (.bufferTooSmall "gzip" input.length room) ∨
        ∃ corruption, answer = .error (.corruptInput corruption)) ∧
    (∀ content, answer = .ok content → later = .ok content) ∧
    (∀ corruption, answer = .error (.corruptInput corruption) →
      ∃ corruption, later = .error (.corruptInput corruption)) ∧
    ∃ enough, ∀ room, enough ≤ room →
      ((codec.afterAll requests).decompress input room).result ≠
        .error (.bufferTooSmall "gzip" input.length room) := by
  intro answer later
  obtain ⟨level, isNew⟩ := asNew_of_new made
  obtain ⟨otherLevel, otherIsNew⟩ := asNew_of_new otherMade
  have asNew := isNew.afterAll requests
  have otherAsNew := otherIsNew.afterAll otherRequests
  have answers := asNew.answers_decompress follows input roomy
  refine ⟨answers.settled_or_tooSmall, fun content succeeds => ?_,
    fun corruption corrupt => ?_,
    (grammar.read input).content.length + 1, fun room enough => ?_⟩
  · exact asNew.ok_of_larger otherAsNew follows roomy le succeeds
  · exact asNew.corrupt_of_larger otherAsNew follows roomy le corrupt
  · have answersEnough :=
      asNew.answers_decompress follows input (Nat.lt_of_lt_of_le (Nat.succ_pos _) enough)
    exact answersEnough.ne_tooSmall_of_fits enough

theorem decompress_settles_of_exact_fit :
    let codec : SoftwareCodec Deflate.Encoder Inflate.Decoder := ⟨0, .zlib, .idle⟩
    let requests : List Request := [.compress [9] 2, .decompress [7] 5]
    let input : Bytes := [0x78, 1, 1, 2, 0, 253, 255, 7, 8, 0, 24, 0, 16, 9]
    let answer room := ((codec.afterAll requests).decompress input room).result
    DeflateEngine.Renewable Deflate.Encoder ∧
    InflateEngine.Renewable Inflate.Decoder ∧
    InflateEngine.Follows Inflate.Decoder .zlib (Inflate.grammar .zlib) ∧
    new (.exactly 0) .zlib = .ok codec ∧ 0 < 2 ∧ 2 ≤ 1000 ∧
    answer 1 = .error (.bufferTooSmall "gzip" 14 1) ∧ answer 2 = .ok [7, 8] ∧
    answer 1000 = .ok [7, 8] := by
  intro codec requests input answer
  have follows := Inflate.follows_grammar .zlib
  have made : new (.exactly 0) .zlib = .ok codec := rfl
  have small : answer 1 = .error (.bufferTooSmall "gzip" 14 1) := by decide +kernel
  have just : answer 2 = .ok [7, 8] := by decide +kernel
  have le : 2 ≤ 1000 := by decide
  obtain ⟨_, stays, _⟩ := decompress_settles follows made made requests requests input
    Nat.two_pos le
  have larger : answer 1000 = .ok [7, 8] := stays [7, 8] just
  exact ⟨inferInstance, inferInstance, follows, made, Nat.two_pos, le, small, just, larger⟩

/-- Whatever either codec did before, what is left of a stream that breaks off is never
taken for content. It is corrupt, but if it still has all of the content and the room is
just enough for that, the room is what is missing. -/
theorem decompress_of_truncated (streams : Streams ε level format grammar)
    (follows : InflateEngine.Follows ι format grammar)
    {otherRequest : Level} (made : new (.exactly level.val) format = .ok codec)
    (otherMade : new otherRequest format = .ok other)
    (requests otherRequests : List Request) {content packed shorter : Bytes}
    {capacity room : Nat}
    (compressed :
      ((codec.afterAll requests).compress content capacity).result = .ok packed)
    (isPrefix : shorter <+: packed) (breaksOff : shorter ≠ packed)
    (enough : max 1 content.length ≤ room) :
    let answer := ((other.afterAll otherRequests).decompress shorter room).result
    let hasAll := (grammar.read shorter).content = content
    (¬(hasAll ∧ room = content.length) →
      answer = .error (.corruptInput (.truncated shorter.length shorter.length))) ∧
    (hasAll → room = content.length →
      answer = .error (.bufferTooSmall "gzip" shorter.length room)) := by
  intro answer hasAll
  obtain ⟨taken, begun, isStream⟩ :=
    ((asNew_of_new_exactly made).afterAll requests).exists_isStream_of_compress streams
      compressed
  obtain ⟨_, otherAsNew⟩ := asNew_of_new otherMade
  have answers := (otherAsNew.afterAll otherRequests).answers_decompress follows
    shorter (show 0 < room by omega)
  have unfinished := isStream.unfinished_of_prefix isPrefix breaksOff
  have begins : (grammar.read shorter).content <+: content := by
    obtain ⟨missing, packedEq⟩ := isPrefix
    have grown := grammar.content_append shorter missing
    rw [packedEq, isStream.read_eq] at grown
    exact grown.trans begun
  have length_le := begins.length_le
  refine ⟨fun lacks => ?_, fun whole just => ?_⟩
  · apply answers.truncated_of_unfinished unfinished
    rcases Nat.lt_or_ge (grammar.read shorter).content.length room with fits | used
    · exact fits
    · refine absurd ⟨begins.eq_of_length ?_, ?_⟩ lacks <;> omega
  · apply answers.tooSmall_of_unfinished unfinished
    rw [whole, just]

theorem decompress_of_truncated_of_lost_byte :
    let content : Bytes := [1, 2, 3]
    let packed : Bytes := [0x78, 1, 1, 3, 0, 252, 255, 1, 2, 3, 0, 13, 0, 7]
    let shorter : Bytes := [0x78, 1, 1, 3, 0, 252, 255, 1, 2, 3, 0, 13, 0]
    let codec : SoftwareCodec Deflate.Encoder Inflate.Decoder := ⟨0, .zlib, .idle⟩
    let other : SoftwareCodec Deflate.Encoder Inflate.Decoder := ⟨9, .zlib, .idle⟩
    let requests : List Request := [.compress [9] 2, .decompress [7] 5]
    DeflateEngine.Renewable Deflate.Encoder ∧
    InflateEngine.Renewable Inflate.Decoder ∧
    Streams Deflate.Encoder 0 .zlib (Inflate.grammar .zlib) ∧
    InflateEngine.Follows Inflate.Decoder .zlib (Inflate.grammar .zlib) ∧
    new (.exactly (0 : Fin 10).val) .zlib = .ok codec ∧
    new .default .zlib = .ok other ∧
    ((codec.afterAll requests).compress content 14).result = .ok packed ∧
    shorter <+: packed ∧ shorter ≠ packed ∧ max 1 content.length ≤ 3 ∧
    max 1 content.length ≤ 4 ∧
    ((Inflate.grammar .zlib).read shorter).content = content ∧
    ((other.afterAll requests).decompress shorter 3).result =
      .error (.bufferTooSmall "gzip" 13 3) ∧
    ((other.afterAll requests).decompress shorter 4).result =
      .error (.corruptInput (.truncated 13 13)) := by
  intro content packed shorter codec other requests
  have streams := Deflate.streams_stored .zlib
  have follows := Inflate.follows_grammar .zlib
  have made : new (.exactly (0 : Fin 10).val) .zlib = .ok codec := rfl
  have otherMade : new .default .zlib = .ok other := rfl
  have compressed :
      ((codec.afterAll requests).compress content 14).result = .ok packed := by
    decide +kernel
  have isPrefix : shorter <+: packed := by decide
  have breaksOff : shorter ≠ packed := by decide
  have just : max 1 content.length ≤ 3 := by decide
  have more : max 1 content.length ≤ 4 := by decide
  have hasAll : ((Inflate.grammar .zlib).read shorter).content = content := by cbv
  obtain ⟨_, tooSmall⟩ := decompress_of_truncated streams follows made otherMade
    requests requests compressed isPrefix breaksOff just
  obtain ⟨corrupt, _⟩ := decompress_of_truncated streams follows made otherMade
    requests requests compressed isPrefix breaksOff more
  exact ⟨inferInstance, inferInstance, streams, follows, made, otherMade, compressed,
    isPrefix, breaksOff, just, more, hasAll, tooSmall hasAll rfl,
    corrupt fun both => absurd both.2 (by decide)⟩

/-- In a room of just the content's length, a stream that lost its last byte is not
reported as corrupt. -/
theorem truncated_not_always_corrupt :
    ¬∀ (ε ι : Type) [DeflateEngine ε] [InflateEngine ι] [DeflateEngine.Renewable ε]
      [InflateEngine.Renewable ι] (level : Fin 10) (format : Format) (grammar : Grammar)
      (content packed shorter : Bytes) (capacity room : Nat),
      Concludes ε level format grammar content →
      InflateEngine.Follows ι format grammar →
      ∀ codec : SoftwareCodec ε ι, new (.exactly level.val) format = .ok codec →
      (codec.compress content capacity).result = .ok packed →
      shorter <+: packed → shorter ≠ packed → max 1 content.length ≤ room →
      ∃ corruption,
        (codec.decompress shorter room).result = .error (.corruptInput corruption) := by
  intro always
  let codec : SoftwareCodec Deflate.Encoder Inflate.Decoder := ⟨0, .zlib, .idle⟩
  have compressed : (codec.compress [1, 2, 3] 14).result =
      .ok [0x78, 1, 1, 3, 0, 252, 255, 1, 2, 3, 0, 13, 0, 7] := by decide +kernel
  have tooSmall :
      (codec.decompress [0x78, 1, 1, 3, 0, 252, 255, 1, 2, 3, 0, 13, 0] 3).result =
        .error (.bufferTooSmall "gzip" 13 3) := by decide +kernel
  obtain ⟨corruption, corrupt⟩ := always Deflate.Encoder Inflate.Decoder 0 .zlib
    (Inflate.grammar .zlib) [1, 2, 3]
    [0x78, 1, 1, 3, 0, 252, 255, 1, 2, 3, 0, 13, 0, 7]
    [0x78, 1, 1, 3, 0, 252, 255, 1, 2, 3, 0, 13, 0] 14 3
    (Deflate.concludes_stored .zlib [1, 2, 3]) (Inflate.follows_grammar .zlib) codec rfl
    compressed (by decide) (by decide) (by decide)
  rw [tooSmall] at corrupt
  cases corrupt

end StreamCodec.SoftwareCodec
