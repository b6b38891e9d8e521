import StreamCodec.Proofs.Deflate.Storing
import StreamCodec.Proofs.Stream.Decoding
import StreamCodec.Proofs.Stream.Encoding

namespace StreamCodec.Stream

/-- What is compressed from any source into any sink can be decompressed from any
source into any sink, whatever comes behind it. -/
theorem decompress_compress {ρ ω ρ' ω' ε ι : Type} [Source ρ] [Sink ω]
    [Source ρ'] [Sink ω'] [DeflateEngine ε] [InflateEngine ι] {level : Fin 10}
    {format : Format} {grammar : Grammar}
    (writes : DeflateEngine.Writes ε level format grammar)
    (follows : InflateEngine.Follows ι format grammar) {chunk chunk' : Nat}
    (roomy : 0 < chunk) (fits : chunk ≤ largestChunk) (roomy' : 0 < chunk')
    (fits' : chunk' ≤ largestChunk) {source : ρ} {sink : ω} {data : Bytes}
    (delivers : Source.Delivers chunk source data) (patient : Sink.Patient sink) :
    ∃ report,
      Reports (compress source sink
        ((DeflateSession.new level.val : DeflateSession ε).setUp format).2 chunk)
        report ∧
      report.result = .ok (byteCount (received report.transcript)) ∧
      ∀ (trailing : Bytes) (source' : ρ') (sink' : ω'),
        Source.Delivers chunk' source' (received report.transcript ++ trailing) →
        Sink.Patient sink' →
        ∃ report',
          Reports (decompress source' sink'
            (InflateSession.new format : InflateSession ι).setUp.2 chunk')
            report' ∧
          report'.result = .ok (byteCount data) ∧
          received report'.transcript = data ∧
          report'.parties.session.finished = true := by
  obtain ⟨report, reports, succeeds, isStream⟩ :=
    compress_isStream writes roomy fits delivers patient
  refine ⟨report, reports, succeeds, ?_⟩
  intro trailing source' sink' delivers' patient'
  obtain ⟨report', reports', concludes⟩ :=
    concludes_decompress follows roomy' fits' delivers' patient'
  rw [isStream.read_append trailing] at concludes
  obtain ⟨resultEq, receivedEq, finished⟩ := concludes.complete rfl
  exact ⟨report', reports', resultEq, receivedEq, finished⟩

theorem decompress_compress_bytewise :
    let data : Bytes := [1, 2, 3]
    let source := ScriptedSource.new [.upTo 2, .interrupted, .upTo 1] data
    DeflateEngine.Writes Deflate.Encoder 0 .zlib (Inflate.grammar .zlib) ∧
    InflateEngine.Follows Inflate.Decoder .zlib (Inflate.grammar .zlib) ∧
    Source.Delivers 1 source data ∧ Sink.Patient LimitedSink.hesitant ∧
    ∃ report,
      Reports (compress source LimitedSink.hesitant
        ((DeflateSession.new 0 : DeflateSession Deflate.Encoder).setUp .zlib).2 1)
        report ∧
      report.result = .ok (byteCount (received report.transcript)) ∧
      ∀ trailing : Bytes,
        ∃ report',
          Reports (decompress
            (ScriptedSource.new [.interrupted, .upTo 1]
              (received report.transcript ++ trailing)) LimitedSink.hesitant
            (InflateSession.new .zlib : InflateSession Inflate.Decoder).setUp.2 2)
            report' ∧
          report'.result = .ok (byteCount data) ∧
          received report'.transcript = data ∧
          report'.parties.session.finished = true := by
  intro data source
  have writes := Deflate.writes_stored .zlib
  have follows := Inflate.follows_grammar .zlib
  have patient := LimitedSink.patient_hesitant
  have delivers : Source.Delivers 1 source data := by
    apply ScriptedSource.delivers_new
    · simp [Reading.IsHarmless]
    · exact Nat.zero_lt_one
  obtain ⟨report, reports, succeeds, decompresses⟩ :=
    @decompress_compress ScriptedSource LimitedSink ScriptedSource LimitedSink
      _ _ _ _ _ _ _ _ 0 .zlib _ writes follows 1 2 Nat.zero_lt_one (by decide)
      Nat.zero_lt_two (by decide) source _ data delivers patient
  refine ⟨writes, follows, delivers, patient, report, reports, succeeds, ?_⟩
  intro trailing
  apply decompresses trailing _ _ _ patient
  apply ScriptedSource.delivers_new
  · simp [Reading.IsHarmless]
  · exact Nat.zero_lt_two

end StreamCodec.Stream
