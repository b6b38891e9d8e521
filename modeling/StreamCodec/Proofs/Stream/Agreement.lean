import StreamCodec.Deflate.Encoder
import StreamCodec.Proofs.Inflate.Laws
import StreamCodec.Proofs.Stream.Decoding

namespace StreamCodec.Stream

/-! The one-shot and the chunked path agree, since both follow what the bytes
mean. -/

/-- Whatever the bytes are, however they are read and written: the chunked path
decodes what the one-shot path decodes, and rejects as corrupt what the one-shot path
rejects as corrupt. -/
theorem decompress_agrees {ρ ω ε ι : Type} [Source ρ] [Sink ω]
    [DeflateEngine ε] [InflateEngine ι] {format : Format} {grammar : Grammar}
    (follows : InflateEngine.Follows ι format grammar) {level : Level}
    {codec : SoftwareCodec ε ι} (made : SoftwareCodec.new level format = .ok codec)
    {chunk : Nat} (roomy : 0 < chunk) (fits : chunk ≤ largestChunk) {source : ρ}
    {sink : ω} {bytes : Bytes} (delivers : Source.Delivers chunk source bytes)
    (patient : Sink.Patient sink) :
    ∃ report,
      Reports (decompress source sink
        (InflateSession.new format : InflateSession ι).setUp.2 chunk) report ∧
      (report.result = .ok (byteCount (received report.transcript)) ∨
        ∃ corruption, report.result = .error (.corruptInput corruption)) ∧
      (∀ content,
        (report.result = .ok (byteCount content) ∧
            received report.transcript = content) ↔
          ∀ room, max 1 content.length ≤ room →
            (codec.decompress bytes room).result = .ok content) ∧
      ((∃ error, report.result = .error error) →
        ∀ room, (grammar.read bytes).content.length < room →
          ∃ corruption, (codec.decompress bytes room).result =
            .error (.corruptInput corruption)) := by
  obtain ⟨report, reports, concludes⟩ :=
    concludes_decompress follows roomy fits delivers patient
  obtain ⟨level, asNew⟩ := SoftwareCodec.asNew_of_new made
  have answers (room : Nat) (roomy : 0 < room) :=
    asNew.answers_decompress follows bytes roomy
  refine ⟨report, reports, ?_⟩
  rcases Decidable.em ((grammar.read bytes).verdict = .complete) with
    complete | notComplete
  · obtain ⟨resultEq, receivedEq, _⟩ := concludes.complete complete
    rw [List.nil_append] at receivedEq
    refine ⟨.inl (by rw [receivedEq]; exact resultEq), fun content => ?_,
      fun ⟨error, failed⟩ => ?_⟩
    · rw [receivedEq]
      constructor
      · rintro ⟨_, rfl⟩ room enough
        exact (answers room (by omega)).ok_of_complete complete (by omega)
      · intro decodes
        have decoded := answers (max 1 content.length) (by omega)
        rw [decodes _ (Nat.le_refl _)] at decoded
        have meaningEq := decoded.meaning_of_ok
        rw [meaningEq] at resultEq ⊢
        exact ⟨resultEq, rfl⟩
    · rw [resultEq] at failed
      cases failed
  · obtain ⟨corruption, resultEq⟩ := concludes.otherwise notComplete
    refine ⟨.inr ⟨corruption, resultEq⟩, fun content => ?_, fun _ room enough => ?_⟩
    · constructor
      · rintro ⟨succeeds, _⟩
        rw [resultEq] at succeeds
        cases succeeds
      · intro decodes
        have decoded := answers (max 1 content.length) (by omega)
        rw [decodes _ (Nat.le_refl _)] at decoded
        have meaningEq := decoded.meaning_of_ok
        exact absurd (by rw [meaningEq]) notComplete
    · exact (answers room (by omega)).corrupt_of_not_complete notComplete enough

theorem decompress_agrees_of_short_reads :
    let grammar := Inflate.grammar .deflate
    let bytes : Bytes := [1, 1, 0, 254, 255, 7, 9]
    let source := ScriptedSource.new [.upTo 1, .interrupted, .upTo 3] bytes
    InflateEngine.Follows Inflate.Decoder .deflate grammar ∧
    Source.Delivers 2 source bytes ∧ Sink.Patient LimitedSink.hesitant ∧
    ∃ codec : SoftwareCodec Deflate.Encoder Inflate.Decoder,
      SoftwareCodec.new .default .deflate = .ok codec ∧
      ∃ report,
        Reports (decompress source LimitedSink.hesitant
          (InflateSession.new .deflate : InflateSession Inflate.Decoder).setUp.2
          2) report ∧
        (report.result = .ok (byteCount (received report.transcript)) ∨
          ∃ corruption, report.result = .error (.corruptInput corruption)) ∧
        (∀ content,
          (report.result = .ok (byteCount content) ∧
              received report.transcript = content) ↔
            ∀ room, max 1 content.length ≤ room →
              (codec.decompress bytes room).result = .ok content) ∧
        ((∃ error, report.result = .error error) →
          ∀ room, (grammar.read bytes).content.length < room →
            ∃ corruption, (codec.decompress bytes room).result =
              .error (.corruptInput corruption)) := by
  intro grammar bytes source
  have follows := Inflate.follows_grammar .deflate
  have delivers : Source.Delivers 2 source bytes := by
    apply ScriptedSource.delivers_new
    · simp [Reading.IsHarmless]
    · exact Nat.zero_lt_two
  have patient := LimitedSink.patient_hesitant
  let codec : SoftwareCodec Deflate.Encoder Inflate.Decoder :=
    ⟨9, .deflate, .idle⟩
  have made : SoftwareCodec.new .default .deflate = .ok codec := rfl
  exact ⟨follows, delivers, patient, codec, made,
    decompress_agrees follows made Nat.zero_lt_two (by decide) delivers patient⟩

end StreamCodec.Stream
