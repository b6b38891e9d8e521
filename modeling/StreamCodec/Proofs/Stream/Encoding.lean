import StreamCodec.Proofs.Session.Deflating
import StreamCodec.Proofs.Stream.Run
import StreamCodec.Stream.Compression

namespace StreamCodec.Stream

/-! A compression comes to its end and leaves one stream of all that the source
brought. -/

namespace Compression

variable {ρ ω ε : Type} [Source ρ] [Sink ω] [DeflateEngine ε] {level : Fin 10}
  {format : Format} {grammar : Grammar} {willing : ω → Prop}

def Ends (grammar : Grammar) (machine : Compression ρ ω (DeflateSession ε))
    (given content : Bytes) : Prop :=
  ∃ exchanges parties,
    Runs turn machine exchanges (.ok (byteCount (given ++ received exchanges)))
        parties ∧
      grammar.IsStream (given ++ received exchanges) content

theorem Ends.of_leads {machine later : Compression ρ ω (DeflateSession ε)}
    {given content : Bytes} {exchanges : List Exchange}
    (leads : Leads turn machine exchanges later)
    (ends : Ends grammar later (given ++ received exchanges) content) :
    Ends grammar machine given content := by
  obtain ⟨onward, parties, runs, isStream⟩ := ends
  rw [List.append_assoc, ← received_append] at runs isStream
  exact ⟨_, parties, leads.runs runs, isStream⟩

theorem Ends.of_turn {machine next : Compression ρ ω (DeflateSession ε)}
    {given content : Bytes} {exchange : Exchange}
    (turned : turn machine = (exchange, .next next))
    (noneWritten : exchange.received = []) (ends : Ends grammar next given content) :
    Ends grammar machine given content := by
  apply Ends.of_leads (.step turned (.refl next))
  rw [received_cons, noneWritten, received_nil, List.append_nil, List.append_nil]
  exact ends

private theorem leads_writing {sink emptied : ω} {bytes : Bytes}
    (takes : Sink.Takes sink bytes emptied) (source : ρ)
    (session : DeflateSession ε) (chunk : Nat) (onward : Stage) (total : UInt64) :
    ∃ exchanges,
      Leads turn
          (⟨⟨source, sink, session⟩, chunk, .writing bytes onward, total⟩ :
            Compression ρ ω (DeflateSession ε))
          exchanges ⟨⟨source, emptied, session⟩, chunk, onward, total⟩ ∧
        received exchanges = bytes := by
  apply leads_of_takes
    (fun bytes sink =>
      (⟨⟨source, sink, session⟩, chunk, .writing bytes onward, total⟩ :
        Compression ρ ω (DeflateSession ε))) ?_ takes
  intro bytes rest sink next exchange nonempty offered
  have writing : Stage.writing bytes onward = .write bytes onward := by
    rw [Stage.writing, if_neg (by simpa using nonempty)]
  simp only [writing, turn, offered]

private theorem ends_of_call (accepts : Sink.Willing willing) {source : ρ} {sink : ω}
    (ready : willing sink) {session next : DeflateSession ε} {chunk : Nat}
    {given output content : Bytes} {before after : Stage} {exchange : Exchange}
    (turned : turn
      (⟨⟨source, sink, session⟩, chunk, before, byteCount given⟩ :
        Compression ρ ω (DeflateSession ε)) =
      (exchange, .next ⟨⟨source, sink, next⟩, chunk, .writing output after,
        byteCount given + byteCount output⟩))
    (noneWritten : exchange.received = [])
    (ends : ∀ emptied : ω, willing emptied →
      Ends grammar ⟨⟨source, emptied, next⟩, chunk, after,
        byteCount (given ++ output)⟩ (given ++ output) content) :
    Ends grammar ⟨⟨source, sink, session⟩, chunk, before, byteCount given⟩ given
      content := by
  obtain ⟨emptied, takes, stillReady⟩ := accepts.takes ready output
  obtain ⟨exchanges, leads, receivedEq⟩ :=
    leads_writing takes source next chunk after (byteCount given + byteCount output)
  apply Ends.of_turn turned noneWritten
  apply Ends.of_leads leads
  rw [receivedEq, ← byteCount_append]
  exact ends emptied stillReady

private theorem ends_of_flush (accepts : Sink.Willing willing) (source : ρ) {sink : ω}
    (ready : willing sink) (session : DeflateSession ε) (chunk : Nat)
    {given content : Bytes} (isStream : grammar.IsStream given content) :
    Ends grammar ⟨⟨source, sink, session⟩, chunk, .flush, byteCount given⟩ given
      content := by
  obtain ⟨flushed, flush⟩ := accepts.flushes ready
  have turned : turn
      (⟨⟨source, sink, session⟩, chunk, .flush, byteCount given⟩ :
        Compression ρ ω (DeflateSession ε)) =
      (.flushed, .done (.ok (byteCount given)) ⟨source, flushed, session⟩) := by
    simp only [turn, flush]
  have nothing : given ++ received [.flushed] = given := List.append_nil given
  refine ⟨[.flushed], ⟨source, flushed, session⟩, ?_, ?_⟩
  · rw [nothing]
    exact .done turned
  · rwa [nothing]

variable {chunk : Nat}

private theorem ends_of_finish (writes : DeflateEngine.Writes ε level format grammar)
    (accepts : Sink.Willing willing) (roomy : 0 < chunk) (source : ρ)
    {given content : Bytes} {session : DeflateSession ε} {sink : ω}
    (closing : session.Closing level format content given)
    (ready : willing sink) {most bound : Nat}
    (bounded : session.Bounded most bound) :
    Ends grammar ⟨⟨source, sink, session⟩, chunk, .finish, byteCount given⟩ given
      content := by
  induction bound using Nat.strongRecOn generalizing given session sink with
  | ind bound induction =>
      obtain ⟨drained, next, finished, outcome⟩ := closing.finish writes roomy
      have turned : turn
          (⟨⟨source, sink, session⟩, chunk, .finish, byteCount given⟩ :
            Compression ρ ω (DeflateSession ε)) =
          (.finished drained.output drained.retry,
            .next ⟨⟨source, sink, next⟩, chunk,
              .writing drained.output
                (if drained.retry then .finish else .flush),
              byteCount given + byteCount drained.output⟩) := by
        simp only [turn, Compressor.finish, finished]
      refine ends_of_call accepts ready turned rfl ?_
      intro emptied ready
      rcases outcome with
        ⟨ended, _, isStream⟩ | ⟨retry, nonempty, nextClosing, budget⟩
      · rw [if_neg (by simp [ended])]
        exact ends_of_flush accepts source ready next chunk isStream
      · obtain ⟨fits, nextBounded⟩ := budget most bound bounded
        have given_pos := List.length_pos_iff.2 nonempty
        rw [if_pos retry]
        exact induction (bound - drained.output.length) (by omega) nextClosing
          ready nextBounded

private theorem ends_of_feed (accepts : Sink.Willing willing) {source : ρ} {sink : ω}
    (ready : willing sink) {session next : DeflateSession ε}
    {pending given content : Bytes} {transfer : Transfer pending chunk}
    (nonempty : pending ≠ [])
    (compressed : session.compress pending chunk = (.ok transfer, next))
    (busy : ¬transfer.IsIdle)
    (ends : ∀ emptied : ω, willing emptied →
      Ends grammar ⟨⟨source, emptied, next⟩, chunk, .feeding transfer.rest,
        byteCount (given ++ transfer.output)⟩ (given ++ transfer.output) content) :
    Ends grammar
      ⟨⟨source, sink, session⟩, chunk, .feeding pending, byteCount given⟩ given
      content := by
  have turned : turn
      (⟨⟨source, sink, session⟩, chunk, .feed pending, byteCount given⟩ :
        Compression ρ ω (DeflateSession ε)) =
      (.called pending transfer.consumed transfer.output,
        .next ⟨⟨source, sink, next⟩, chunk,
          .writing transfer.output (.feeding transfer.rest),
          byteCount given + byteCount transfer.output⟩) := by
    simp only [turn, Compressor.compress, compressed, if_neg busy]
  have feeding : Stage.feeding pending = .feed pending := by
    rw [Stage.feeding, if_neg (by simpa using nonempty)]
  rw [feeding]
  exact ends_of_call accepts ready turned rfl ends

theorem ends_of_pending (writes : DeflateEngine.Writes ε level format grammar)
    (accepts : Sink.Willing willing) (roomy : 0 < chunk) {source : ρ}
    {taken given pending content : Bytes} {session : DeflateSession ε} {sink : ω}
    (midway : session.Midway level format taken given) (ready : willing sink)
    {most bound : Nat} (bounded : session.Bounded most bound)
    (within : pending.length ≤ most)
    (later : ∀ (given : Bytes) (next : DeflateSession ε) (emptied : ω)
      (bound : Nat), next.Midway level format (taken ++ pending) given →
      willing emptied → next.Bounded (most - pending.length) bound →
      Ends grammar ⟨⟨source, emptied, next⟩, chunk, .read, byteCount given⟩ given
        content) :
    Ends grammar
      ⟨⟨source, sink, session⟩, chunk, .feeding pending, byteCount given⟩ given
      content := by
  induction measureEq : pending.length + bound using Nat.strongRecOn
    generalizing taken given pending session sink most bound with
  | ind measure induction =>
      rcases Decidable.em (pending = []) with rfl | nonempty
      · rw [List.append_nil] at later
        exact later given session sink bound midway ready bounded
      obtain ⟨transfer, next, compressed, nextMidway, moves, budget⟩ :=
        midway.compress writes pending chunk
      have busy := moves nonempty roomy
      have whole := transfer.taken_append_rest
      have lengths := congrArg List.length whole
      rw [List.length_append] at lengths
      obtain ⟨fits, nextBounded⟩ := budget most bound bounded (by omega)
      refine ends_of_feed accepts ready nonempty compressed busy ?_
      intro emptied ready
      have smaller : transfer.rest.length + (bound - transfer.output.length) <
          measure := by
        have shrinks := transfer.shrinks busy
        have outputFits := transfer.output_le
        simp only [Transfer.roomLeft] at shrinks
        omega
      refine induction _ smaller nextMidway ready nextBounded (by omega) ?_ rfl
      intro given next emptied bound midway ready bounded
      rw [List.append_assoc, whole] at midway
      rw [Nat.sub_sub, lengths] at bounded
      exact later given next emptied bound midway ready bounded

theorem ends_of_delivers (writes : DeflateEngine.Writes ε level format grammar)
    (accepts : Sink.Willing willing) (roomy : 0 < chunk) {source : ρ}
    {bytes : Bytes} (delivers : Source.Delivers chunk source bytes)
    {taken given : Bytes} {session : DeflateSession ε} {sink : ω}
    (midway : session.Midway level format taken given) (ready : willing sink)
    {most bound : Nat} (bounded : session.Bounded most bound)
    (within : bytes.length ≤ most) :
    Ends grammar ⟨⟨source, sink, session⟩, chunk, .read, byteCount given⟩ given
      (taken ++ bytes) := by
  induction delivers generalizing taken given session sink most bound with
  | @ends source next fits read =>
      have turned : turn
          (⟨⟨source, sink, session⟩, chunk, .read, byteCount given⟩ :
            Compression ρ ω (DeflateSession ε)) =
          (.read [],
            .next ⟨⟨next, sink, session⟩, chunk, .finish, byteCount given⟩) := by
        simp only [turn, read]
      apply Ends.of_turn turned rfl
      rw [List.append_nil]
      exact ends_of_finish writes accepts roomy next midway.closing ready bounded
  | @interrupted source next bytes read later induction =>
      have turned : turn
          (⟨⟨source, sink, session⟩, chunk, .read, byteCount given⟩ :
            Compression ρ ω (DeflateSession ε)) =
          (.readInterrupted,
            .next ⟨⟨next, sink, session⟩, chunk, .read, byteCount given⟩) := by
        simp only [turn, read]
      apply Ends.of_turn turned rfl
      exact induction midway ready bounded within
  | @brings source next content bytes fits read nonempty later induction =>
      have turned : turn
          (⟨⟨source, sink, session⟩, chunk, .read, byteCount given⟩ :
            Compression ρ ω (DeflateSession ε)) =
          (.read content,
            .next ⟨⟨next, sink, session⟩, chunk, .feeding content,
              byteCount given⟩) := by
        rcases content with _ | ⟨byte, tail⟩
        · exact absurd rfl nonempty
        · simp only [turn, read]
          rfl
      rw [List.length_append] at within
      apply Ends.of_turn turned rfl
      rw [← List.append_assoc]
      apply ends_of_pending writes accepts roomy midway ready bounded (by omega)
      intro given next emptied bound midway ready bounded
      exact induction midway ready bounded (by omega)

end Compression

/-- Whatever the source brings becomes one stream. -/
theorem compress_isStream {ρ ω ε : Type} [Source ρ] [Sink ω]
    [DeflateEngine ε] {level : Fin 10} {format : Format} {grammar : Grammar}
    (writes : DeflateEngine.Writes ε level format grammar) {chunk : Nat}
    (roomy : 0 < chunk) (fits : chunk ≤ largestChunk) {source : ρ} {sink : ω}
    {bytes : Bytes} (delivers : Source.Delivers chunk source bytes)
    (patient : Sink.Patient sink) :
    ∃ report,
      Reports (compress source sink
        ((DeflateSession.new level.val : DeflateSession ε).setUp format).2 chunk)
        report ∧
      report.result = .ok (byteCount (received report.transcript)) ∧
      grammar.IsStream (received report.transcript) bytes := by
  obtain ⟨willing, accepts, ready⟩ := patient
  have midway := DeflateSession.midway_setUp_new (ε := ε) level format
  obtain ⟨bound, bounded⟩ := midway.bounded writes bytes.length
  obtain ⟨exchanges, parties, runs, isStream⟩ :=
    Compression.ends_of_delivers writes accepts roomy delivers midway ready
      bounded (Nat.le_refl _)
  rw [List.nil_append] at runs isStream
  refine ⟨⟨.ok (byteCount (received exchanges)), parties, exchanges⟩, ?_, rfl, isStream⟩
  obtain ⟨enough, repeated⟩ := runs.reports
  refine ⟨enough, fun extra => ?_⟩
  simp only [compress, checkChunk_ok roomy fits]
  exact repeated extra

end StreamCodec.Stream
