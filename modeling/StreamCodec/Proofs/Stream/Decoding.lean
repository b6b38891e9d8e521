import StreamCodec.Proofs.Codec.Inflation
import StreamCodec.Proofs.Session.Inflating
import StreamCodec.Proofs.Stream.Run
import StreamCodec.Stream.Decompression

namespace StreamCodec.Stream

/-! How a decompression ends follows from what the bytes of the source mean, however
the source cuts them and however the sink takes what is written. -/

namespace Decompression

/-- All of what was read is used up, and the session holds nothing back. -/
def IsSpent {pending : Bytes} {chunk : Nat} (transfer : Transfer pending chunk) : Prop :=
  transfer.rest = [] ∧ (transfer.IsIdle ∨ 0 < transfer.roomLeft)

private theorem onward_of_isSpent {pending : Bytes} {chunk : Nat}
    {transfer : Transfer pending chunk} (spent : IsSpent transfer) :
    onward transfer false = .ok .read := by
  have usedUp : transfer.rest.isEmpty = true := List.isEmpty_iff.2 spent.1
  rw [onward, if_neg Bool.false_ne_true]
  rcases Decidable.em transfer.IsIdle with idle | busy
  · rw [if_pos idle, if_pos usedUp]
  · rw [if_neg busy, if_pos ⟨usedUp, spent.2.resolve_left busy⟩]

private theorem onward_of_not_isSpent {pending : Bytes} {chunk : Nat}
    {transfer : Transfer pending chunk} (busy : ¬transfer.IsIdle)
    (more : ¬IsSpent transfer) : onward transfer false = .ok (.decode transfer.rest) := by
  rw [onward, if_neg Bool.false_ne_true, if_neg busy, if_neg]
  rintro ⟨usedUp, space⟩
  exact more ⟨List.isEmpty_iff.1 usedUp, .inr space⟩

variable {ρ ω ι : Type} [Source ρ] [Sink ω] [InflateEngine ι]
  {format : Format} {grammar : Grammar} {willing : ω → Prop}

structure Concludes (meaning : Meaning) (written : Bytes)
    (exchanges : List Exchange) (result : Except CodecError UInt64)
    (parties : Parties ρ ω (InflateSession ι)) : Prop where
  complete : meaning.verdict = .complete →
    result = .ok (byteCount meaning.content) ∧
      written ++ received exchanges = meaning.content ∧
      parties.session.finished = true
  otherwise : meaning.verdict ≠ .complete →
    ∃ corruption, result = .error (.corruptInput corruption)

def Ends (machine : Decompression ρ ω (InflateSession ι)) (meaning : Meaning)
    (written : Bytes) : Prop :=
  ∃ exchanges result parties,
    Runs turn machine exchanges result parties ∧
      Concludes meaning written exchanges result parties

theorem Ends.of_leads {machine later : Decompression ρ ω (InflateSession ι)}
    {meaning : Meaning} {written : Bytes} {exchanges : List Exchange}
    (leads : Leads turn machine exchanges later)
    (ends : Ends later meaning (written ++ received exchanges)) :
    Ends machine meaning written := by
  obtain ⟨onward, result, parties, runs, complete, otherwise⟩ := ends
  refine ⟨_, result, parties, leads.runs runs, ?_, otherwise⟩
  intro isComplete
  obtain ⟨resultEq, receivedEq, finished⟩ := complete isComplete
  refine ⟨resultEq, ?_, finished⟩
  rw [received_append, ← List.append_assoc]
  exact receivedEq

theorem Ends.of_turn {machine next : Decompression ρ ω (InflateSession ι)}
    {meaning : Meaning} {written : Bytes} {exchange : Exchange}
    (turned : turn machine = (exchange, .next next))
    (noneWritten : exchange.received = []) (ends : Ends next meaning written) :
    Ends machine meaning written := by
  apply Ends.of_leads (.step turned (.refl next))
  rw [received_cons, noneWritten, received_nil, List.append_nil, List.append_nil]
  exact ends

theorem Ends.of_corrupt {machine : Decompression ρ ω (InflateSession ι)}
    {meaning : Meaning} {written : Bytes} {exchange : Exchange}
    {corruption : Corruption} {parties : Parties ρ ω (InflateSession ι)}
    (turned : turn machine =
      (exchange, .done (.error (.corruptInput corruption)) parties))
    (notComplete : meaning.verdict ≠ .complete) :
    Ends machine meaning written := by
  refine ⟨_, _, parties, .done turned, ?_, fun _ => ⟨corruption, rfl⟩⟩
  intro isComplete
  exact absurd isComplete notComplete

private theorem ends_of_flush (accepts : Sink.Willing willing) (source : ρ) {sink : ω}
    (ready : willing sink) {session : InflateSession ι}
    (finished : session.finished = true) (chunk : Nat) (content : Bytes) :
    Ends ⟨⟨source, sink, session⟩, chunk, .flush, byteCount content⟩
      ⟨content, .complete⟩ content := by
  obtain ⟨flushed, flush⟩ := accepts.flushes ready
  have turned : turn
      (⟨⟨source, sink, session⟩, chunk, .flush, byteCount content⟩ :
        Decompression ρ ω (InflateSession ι)) =
      (.flushed, .done (.ok (byteCount content)) ⟨source, flushed, session⟩) := by
    simp only [turn, flush]
  refine ⟨_, _, _, .done turned, ?_, fun notComplete => absurd rfl notComplete⟩
  intro isComplete
  exact ⟨rfl, List.append_nil content, finished⟩

private theorem leads_writing {sink emptied : ω} {bytes : Bytes}
    (takes : Sink.Takes sink bytes emptied) (source : ρ)
    (session : InflateSession ι) (chunk : Nat) (onward : Stage) (total : UInt64) :
    ∃ exchanges,
      Leads turn
          (⟨⟨source, sink, session⟩, chunk, .writing bytes onward, total⟩ :
            Decompression ρ ω (InflateSession ι))
          exchanges ⟨⟨source, emptied, session⟩, chunk, onward, total⟩ ∧
        received exchanges = bytes := by
  apply leads_of_takes
    (fun bytes sink =>
      (⟨⟨source, sink, session⟩, chunk, .writing bytes onward, total⟩ :
        Decompression ρ ω (InflateSession ι))) ?_ takes
  intro bytes rest sink next exchange nonempty offered
  have writing : Stage.writing bytes onward = .write bytes onward := by
    rw [Stage.writing, if_neg (by simpa using nonempty)]
  simp only [writing, turn, offered]

private theorem ends_of_decode (accepts : Sink.Willing willing) {source : ρ} {sink : ω}
    (ready : willing sink) {session next : InflateSession ι} {chunk : Nat}
    {pending written : Bytes} {meaning : Meaning}
    {decoded : Decoded pending chunk}
    (called : session.decompress pending chunk = (.ok decoded, next))
    (stage : Stage)
    (goesOn : onward decoded.toTransfer next.finished = .ok stage)
    (ends : ∀ emptied : ω, willing emptied →
      Ends ⟨⟨source, emptied, next⟩, chunk, stage,
        byteCount (written ++ decoded.output)⟩ meaning
        (written ++ decoded.output)) :
    Ends ⟨⟨source, sink, session⟩, chunk, .decode pending, byteCount written⟩
      meaning written := by
  obtain ⟨emptied, takes, stillReady⟩ := accepts.takes ready decoded.output
  obtain ⟨exchanges, leads, receivedEq⟩ :=
    leads_writing takes source next chunk stage
      (byteCount written + byteCount decoded.output)
  have turned : turn
      (⟨⟨source, sink, session⟩, chunk, .decode pending, byteCount written⟩ :
        Decompression ρ ω (InflateSession ι)) =
      (.called pending decoded.consumed decoded.output,
        .next ⟨⟨source, sink, next⟩, chunk, .writing decoded.output stage,
          byteCount written + byteCount decoded.output⟩) := by
    simp only [turn, Decompressor.decompress, called, Decompressor.isFinished,
      goesOn]
  apply Ends.of_turn turned rfl
  apply Ends.of_leads leads
  rw [receivedEq, ← byteCount_append]
  exact ends emptied stillReady

variable {chunk : Nat} {source : ρ} {sink : ω} {session next : InflateSession ι}
  {consumed pending written behind : Bytes}

private theorem ends_of_fault {words : Option String}
    (called : session.decompress pending chunk =
      (.error (.corruptInput (.inflate words)), next))
    (faulty : (grammar.read (consumed ++ pending)).verdict = .faulty) :
    Ends ⟨⟨source, sink, session⟩, chunk, .decode pending, byteCount written⟩
      (grammar.read (consumed ++ pending ++ behind)) written := by
  have turned : turn
      (⟨⟨source, sink, session⟩, chunk, .decode pending, byteCount written⟩ :
        Decompression ρ ω (InflateSession ι)) =
      (.callFailed (.corruptInput (.inflate words)),
        .done (.error (.corruptInput (.inflate words))) ⟨source, sink, next⟩) := by
    simp only [turn, Decompressor.decompress, called]
  refine .of_corrupt turned ?_
  rw [Grammar.read_append_of_faulty faulty, faulty]
  exact Verdict.noConfusion

variable {decoded : Decoded pending chunk}

private theorem ends_of_ended (accepts : Sink.Willing willing) (ready : willing sink)
    (called : session.decompress pending chunk = (.ok decoded, next))
    (finished : next.finished = true)
    (isStream : grammar.IsStream (consumed ++ decoded.taken)
      (written ++ decoded.output)) :
    Ends ⟨⟨source, sink, session⟩, chunk, .decode pending, byteCount written⟩
      (grammar.read (consumed ++ pending ++ behind)) written := by
  have meaningEq := isStream.read_append (decoded.rest ++ behind)
  rw [← List.append_assoc, List.append_assoc consumed,
    Transfer.taken_append_rest] at meaningEq
  refine ends_of_decode accepts ready called .flush ?_ fun emptied stillReady => ?_
  · rw [onward, if_pos finished]
  · rw [meaningEq]
    exact ends_of_flush accepts source stillReady finished chunk _

def Resumes (format : Format) (grammar : Grammar) (willing : ω → Prop) (chunk : Nat)
    (source : ρ) (behind bytes : Bytes) : Prop :=
  ∀ (content : Bytes) (session : InflateSession ι) (sink : ω),
    session.Midway format bytes content → willing sink →
    grammar.read bytes = ⟨content, .unfinished⟩ →
    Ends ⟨⟨source, sink, session⟩, chunk, .read, byteCount content⟩
      (grammar.read (bytes ++ behind)) content

private theorem ends_of_isSpent (accepts : Sink.Willing willing) (ready : willing sink)
    (called : session.decompress pending chunk = (.ok decoded, next))
    (midway : next.Midway format (consumed ++ decoded.taken)
      (written ++ decoded.output))
    (spent : IsSpent decoded.toTransfer)
    (readEq : grammar.read (consumed ++ pending) =
      ⟨written ++ decoded.output, .unfinished⟩)
    (resumes : Resumes (ι := ι) format grammar willing chunk source behind
      (consumed ++ pending)) :
    Ends ⟨⟨source, sink, session⟩, chunk, .decode pending, byteCount written⟩
      (grammar.read (consumed ++ pending ++ behind)) written := by
  have goesOn := onward_of_isSpent spent
  rw [← midway.not_finished] at goesOn
  refine ends_of_decode accepts ready called .read goesOn fun emptied stillReady => ?_
  rw [Transfer.taken_eq_of_rest spent.1] at midway
  exact resumes _ next emptied midway stillReady readEq

private theorem read_of_isSpent
    (stalled : decoded.IsIdle →
      pending = [] ∧ grammar.read consumed = ⟨written, .unfinished⟩)
    (drained : decoded.rest = [] → decoded.output.length < chunk →
      grammar.read (consumed ++ pending) = ⟨written ++ decoded.output, .unfinished⟩)
    (spent : IsSpent decoded.toTransfer) :
    grammar.read (consumed ++ pending) =
      ⟨written ++ decoded.output, .unfinished⟩ := by
  rcases spent with ⟨usedUp, idle | space⟩
  · obtain ⟨rfl, readEq⟩ := stalled idle
    rw [idle.2, List.append_nil, List.append_nil, readEq]
  · apply drained usedUp
    rw [Transfer.roomLeft] at space
    omega

/-- What is to be taken yet, and what is to be written of it. -/
def due (grammar : Grammar) (consumed pending written : Bytes) : Nat :=
  pending.length +
    ((grammar.read (consumed ++ pending)).content.length - written.length)

private theorem due_lt (busy : ¬decoded.IsIdle)
    (grown : written ++ decoded.output <+:
      (grammar.read (consumed ++ decoded.taken)).content) :
    due grammar (consumed ++ decoded.taken) decoded.rest (written ++ decoded.output) <
      due grammar consumed pending written := by
  have shrinks := decoded.shrinks busy
  have fits := decoded.output_le
  have bound := (grown.trans (grammar.content_append _ decoded.rest)).length_le
  rw [due, due, List.append_assoc, Transfer.taken_append_rest]
  rw [List.append_assoc, Transfer.taken_append_rest] at bound
  rw [List.length_append] at bound ⊢
  rw [Transfer.roomLeft] at shrinks
  omega

theorem ends_of_pending (follows : InflateEngine.Follows ι format grammar)
    (accepts : Sink.Willing willing) (roomy : 0 < chunk)
    (counts : chunk ≤ Engine.callLimit)
    (midway : session.Midway format consumed written) (ready : willing sink)
    (resumes : Resumes (ι := ι) format grammar willing chunk source behind
      (consumed ++ pending)) :
    Ends ⟨⟨source, sink, session⟩, chunk, .decode pending, byteCount written⟩
      (grammar.read (consumed ++ pending ++ behind)) written := by
  induction dueEq : due grammar consumed pending written using Nat.strongRecOn
    generalizing consumed pending written session sink with
  | ind measure induction =>
      have decodes := midway.decodes follows pending roomy counts
      rcases called : session.decompress pending chunk with ⟨answer, next⟩
      rw [called] at decodes
      cases decodes with
      | fault words _ faulty => exact ends_of_fault called faulty
      | ended decoded finished isStream =>
          exact ends_of_ended accepts ready called finished isStream
      | going decoded nextMidway grown stalled drained =>
          by_cases spent : IsSpent decoded.toTransfer
          · have readEq := read_of_isSpent stalled drained spent
            exact ends_of_isSpent accepts ready called nextMidway spent readEq resumes
          · have busy : ¬decoded.IsIdle := by
              intro idle
              obtain ⟨rfl, _⟩ := stalled idle
              exact spent ⟨List.drop_nil, .inl idle⟩
            have goesOn := onward_of_not_isSpent busy spent
            rw [← nextMidway.not_finished] at goesOn
            have less := due_lt busy grown
            have whole : consumed ++ decoded.taken ++ decoded.rest =
                consumed ++ pending := by
              rw [List.append_assoc, Transfer.taken_append_rest]
            refine ends_of_decode accepts ready called _ goesOn fun emptied ready => ?_
            rw [← whole] at resumes ⊢
            exact induction _ (dueEq ▸ less) nextMidway ready resumes rfl

theorem ends_of_delivers (follows : InflateEngine.Follows ι format grammar)
    (accepts : Sink.Willing willing) (roomy : 0 < chunk)
    (counts : chunk ≤ Engine.callLimit) {bytes : Bytes}
    (delivers : Source.Delivers chunk source bytes)
    (midway : session.Midway format consumed written) (ready : willing sink)
    (readEq : grammar.read consumed = ⟨written, .unfinished⟩) :
    Ends ⟨⟨source, sink, session⟩, chunk, .read, byteCount written⟩
      (grammar.read (consumed ++ bytes)) written := by
  induction delivers generalizing consumed written session sink with
  | @ends source next fits read =>
      have turned : turn
          (⟨⟨source, sink, session⟩, chunk, .read, byteCount written⟩ :
            Decompression ρ ω (InflateSession ι)) =
          (.read [], .done (.error (.corruptInput .endsEarly))
            ⟨next, sink, session⟩) := by
        simp only [turn, read, Decompressor.isFinished, midway.not_finished,
          Bool.false_eq_true, if_false]
      refine .of_corrupt turned ?_
      rw [List.append_nil, readEq]
      exact Verdict.noConfusion
  | @interrupted source next bytes read later induction =>
      have turned : turn
          (⟨⟨source, sink, session⟩, chunk, .read, byteCount written⟩ :
            Decompression ρ ω (InflateSession ι)) =
          (.readInterrupted,
            .next ⟨⟨next, sink, session⟩, chunk, .read, byteCount written⟩) := by
        simp only [turn, read]
      apply Ends.of_turn turned rfl
      exact induction midway ready readEq
  | @brings source next content bytes fits read nonempty later induction =>
      have turned : turn
          (⟨⟨source, sink, session⟩, chunk, .read, byteCount written⟩ :
            Decompression ρ ω (InflateSession ι)) =
          (.read content,
            .next ⟨⟨next, sink, session⟩, chunk, .decode content,
              byteCount written⟩) := by
        rcases content with _ | ⟨byte, tail⟩
        · exact absurd rfl nonempty
        · simp only [turn, read]
      apply Ends.of_turn turned rfl
      rw [← List.append_assoc]
      apply ends_of_pending follows accepts roomy counts midway ready
      intro written next emptied midway ready readEq
      exact induction midway ready readEq

end Decompression

/-- The meaning of its bytes decides how a decompression ends. -/
theorem concludes_decompress {ρ ω ι : Type} [Source ρ] [Sink ω]
    [InflateEngine ι] {format : Format} {grammar : Grammar}
    (follows : InflateEngine.Follows ι format grammar) {chunk : Nat}
    (roomy : 0 < chunk) (fits : chunk ≤ largestChunk) {source : ρ} {sink : ω}
    {bytes : Bytes} (delivers : Source.Delivers chunk source bytes)
    (patient : Sink.Patient sink) :
    ∃ report,
      Reports (decompress source sink
        (InflateSession.new format : InflateSession ι).setUp.2 chunk) report ∧
        Decompression.Concludes (grammar.read bytes) [] report.transcript
          report.result report.parties := by
  obtain ⟨willing, accepts, ready⟩ := patient
  have counts : chunk ≤ Engine.callLimit :=
    Nat.le_trans fits (by decide)
  obtain ⟨_, midway⟩ := InflateSession.midway_setUp_new (ι := ι) format
  obtain ⟨exchanges, result, parties, runs, concludes⟩ :=
    Decompression.ends_of_delivers follows accepts roomy counts delivers midway
      ready grammar.read_nil
  refine ⟨⟨result, parties, exchanges⟩, ?_, concludes⟩
  obtain ⟨enough, repeated⟩ := runs.reports
  refine ⟨enough, fun extra => ?_⟩
  simp only [decompress, checkChunk_ok roomy fits]
  exact repeated extra

end StreamCodec.Stream
