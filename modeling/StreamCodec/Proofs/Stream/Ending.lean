import StreamCodec.Inflate.Engine
import StreamCodec.Proofs.Session.Lifecycle
import StreamCodec.Proofs.Stream.Decompressing

namespace StreamCodec.Stream

/-! A decompression that succeeds has come to the end of a stream, or has found a session
that was there before. -/

private theorem Happened.exists_rise {ρ ω σ : Type} [Source ρ] [Sink ω]
    {calls : σ → Exchange → σ → Prop} {chunk : Nat} {first last : Parties ρ ω σ}
    {past : List Exchange} (happened : Happened calls chunk first past last)
    (flag : σ → Bool) (before : flag first.session = false)
    (after : flag last.session = true) :
    ∃ earlier exchange later middle next,
      past = earlier ++ exchange :: later ∧
      Happened calls chunk first earlier middle ∧
      Happens calls chunk middle exchange next ∧
      flag middle.session = false ∧ flag next.session = true := by
  induction happened with
  | nothing => rw [before] at after; cases after
  | @concat parties next past exchange happened happens induction =>
      cases raised : flag parties.session with
      | true =>
          obtain ⟨earlier, rising, later, middle, risen, rfl, rest⟩ := induction raised
          refine ⟨earlier, rising, later ++ [exchange], middle, risen, ?_, rest⟩
          rw [List.append_assoc, List.cons_append]
      | false =>
          exact ⟨past, exchange, [], parties, next, rfl, happened, happens, raised, after⟩

namespace Decompression

namespace Goes

variable {chunk : Nat} {total after : UInt64} {finished : Bool} {next : Stage}
  {exchange : Exchange}

private theorem of_read (goes : Goes chunk finished .read total exchange next after) :
    after = total ∧
      ((exchange = .read [] ∧ next = .flush) ∨
        (∃ content, content ≠ [] ∧ exchange = .read content ∧ next = .decode content) ∨
        (exchange = .readInterrupted ∧ next = .read)) := by
  cases goes with
  | ends => exact ⟨rfl, .inl ⟨rfl, rfl⟩⟩
  | @brings content nonempty => exact ⟨rfl, .inr (.inl ⟨content, nonempty, rfl, rfl⟩)⟩
  | readInterrupted => exact ⟨rfl, .inr (.inr ⟨rfl, rfl⟩)⟩

private theorem not_of_flush : ¬Goes chunk finished .flush total exchange next after := by
  intro goes
  cases goes

end Goes

section

variable {ρ ω σ : Type} [Source ρ] [Sink ω] [Decompressor σ]

inductive Supplied (past : List Exchange) (machine : Decompression ρ ω σ) : Prop
  | reading (stage_eq : machine.stage = .read)
  | flushing (stage_eq : machine.stage = .flush)
  | brought (nonempty : past.flatMap Exchange.delivered ≠ [])

private theorem delivered_of_concat {past : List Exchange} {exchange : Exchange}
    (nonempty : past.flatMap Exchange.delivered ≠ [] ∨ exchange.delivered ≠ []) :
    (past ++ [exchange]).flatMap Exchange.delivered ≠ [] := by
  rw [List.flatMap_append, List.flatMap_singleton]
  rcases nonempty with earlier | now
  · exact List.append_ne_nil_of_left_ne_nil earlier _
  · exact List.append_ne_nil_of_right_ne_nil _ now

theorem Supplied.turn {past : List Exchange} {machine next : Decompression ρ ω σ}
    {exchange : Exchange} (supplied : Supplied past machine)
    (turned : Decompression.turn machine = (exchange, .next next)) :
    Supplied (past ++ [exchange]) next := by
  have turns := turned_turn machine
  rw [turned] at turns
  cases turns with
  | next happens chunk_eq goes =>
      cases supplied with
      | brought nonempty => exact .brought (delivered_of_concat (.inl nonempty))
      | reading stage_eq =>
          rw [stage_eq] at goes
          obtain ⟨_, ⟨rfl, flushing⟩ | ⟨content, nonempty, rfl, _⟩ | ⟨rfl, reading⟩⟩ :=
            goes.of_read
          · exact .flushing flushing
          · exact .brought (delivered_of_concat (.inr nonempty))
          · exact .reading reading
      | flushing stage_eq =>
          rw [stage_eq] at goes
          exact absurd goes Goes.not_of_flush

theorem supplied_of_leads {source : ρ} {sink : ω} {session : σ} {chunk : Nat}
    {past : List Exchange} {machine : Decompression ρ ω σ}
    (leads : Leads turn (start source sink session chunk) past machine) :
    Supplied past machine := by
  have supplied : Supplied [] (start source sink session chunk) := .reading rfl
  exact leads.holds Supplied.turn supplied

private theorem eq_called_of_rise {chunk : Nat} {middle next : Parties ρ ω σ}
    {exchange : Exchange} (happens : Happens (Calls chunk) chunk middle exchange next)
    (going : Decompressor.isFinished middle.session = false)
    (ended : Decompressor.isFinished next.session = true)
    (not_failed : exchange.failure? = none) :
    ∃ input consumed output, exchange = .called input consumed output := by
  have changed : next.session ≠ middle.session := by
    intro same
    rw [same, going] at ended
    cases ended
  cases happens with
  | session answer =>
      cases answer with
      | @decompressed _ input decoded answer =>
          exact ⟨input, decoded.consumed, decoded.output, rfl⟩
      | failed answer => cases not_failed
  | _ => exact absurd rfl changed

end

variable {ρ ω ι : Type} [Source ρ] [Sink ω] [InflateEngine ι]

private theorem endsStream_of_happens {chunk : Nat}
    {middle next : Parties ρ ω (InflateSession ι)}
    {input output : Bytes} {consumed : Nat}
    (happens : Happens (Calls chunk) chunk middle (.called input consumed output) next)
    (going : middle.session.finished = false) (ended : next.session.finished = true) :
    middle.session.EndsStream (.decompress input chunk) := by
  cases happens with
  | @session session _ _ answer source sink =>
      cases answer with
      | decompressed answer =>
          have serves := InflateSession.serves_serve session (.decompress input chunk)
          rw [← serves.finishes_iff]
          refine ⟨going, ?_⟩
          rw [← ended]
          exact congrArg (fun outcome => InflateSession.finished outcome.2) answer

/-- Among what happened is a call with which the engine came to the end of the stream. It
was made on bytes that the source had brought. -/
inductive Reaches (source : ρ) (sink : ω) (session : InflateSession ι) (chunk : Nat)
    (transcript : List Exchange) : Prop
  | of_call {before after : List Exchange} {middle next : Parties ρ ω (InflateSession ι)}
      {input output : Bytes} {consumed : Nat}
      (transcript_eq : transcript = before ++ .called input consumed output :: after)
      (happened : Happened (Calls chunk) chunk ⟨source, sink, session⟩ before middle)
      (happens : Happens (Calls chunk) chunk middle (.called input consumed output) next)
      (ends : middle.session.EndsStream (.decompress input chunk))
      (brought : before.flatMap Exchange.taken ++ input =
        before.flatMap Exchange.delivered)
      (nonempty : before.flatMap Exchange.delivered ≠ []) :
      Reaches source sink session chunk transcript

theorem reaches_of_leads {source : ρ} {sink : ω} {session : InflateSession ι}
    {chunk : Nat}
    {past : List Exchange} {machine : Decompression ρ ω (InflateSession ι)}
    {last : Exchange} (unfinished : session.finished = false)
    (leads : Leads turn (start source sink session chunk) past machine)
    (finished : machine.parties.session.finished = true)
    (turned : (turn machine).1 = last) :
    Reaches source sink session chunk (past ++ [last]) := by
  have accounts := accounts_of_leads unfinished leads
  obtain ⟨before, exchange, after, middle, next, rfl, happened, happens, going, ended⟩ :=
    accounts.happened.exists_rise Decompressor.isFinished unfinished finished
  have member : exchange ∈ before ++ exchange :: after :=
    List.mem_append_right before List.mem_cons_self
  obtain ⟨input, consumed, output, rfl⟩ :=
    eq_called_of_rise happens going ended (accounts.not_failed exchange member)
  have split : before ++ .called input consumed output :: after ++ [last] =
      before ++ .called input consumed output :: (after ++ [last]) :=
    List.append_assoc before _ _
  obtain ⟨asked, leadsThere, called⟩ := leads_of_split leads turned split
  have decoding := pending_of_called called
  have brought := (accounts_of_leads unfinished leadsThere).taken_eq
  rw [decoding] at brought
  have nonempty : before.flatMap Exchange.delivered ≠ [] := by
    cases supplied_of_leads leadsThere with
    | brought nonempty => exact nonempty
    | reading stage_eq => rw [decoding] at stage_eq; cases stage_eq
    | flushing stage_eq => rw [decoding] at stage_eq; cases stage_eq
  have ends := endsStream_of_happens happens going ended
  exact .of_call split happened happens ends (brought id) nonempty

/-! A finished session refuses every call, so that nothing happens to it. -/

private theorem turn_of_finished {machine : Decompression ρ ω (InflateSession ι)}
    {content : Bytes} (finished : machine.parties.session.finished = true)
    (stage_eq : machine.stage = .decode content) :
    turn machine =
      (.callFailed (.invalidState .streamFinished),
        .done (.error (.invalidState .streamFinished)) machine.parties) := by
  obtain ⟨⟨source, sink, format, engine?, _, wasReset⟩, chunk, _, total⟩ := machine
  cases finished
  cases stage_eq
  rfl

/-- So far nothing was asked of the session, and nothing written. -/
inductive Untouched (session : InflateSession ι) (past : List Exchange)
    (machine : Decompression ρ ω (InflateSession ι)) : Prop
  | reading (count : Nat) (same : machine.parties.session = session)
      (stage_eq : machine.stage = .read) (total_eq : machine.total = 0)
      (past_eq : past = List.replicate count .readInterrupted)
  | brought {content : Bytes} (same : machine.parties.session = session)
      (stage_eq : machine.stage = .decode content)
  | flushing (count : Nat) (same : machine.parties.session = session)
      (stage_eq : machine.stage = .flush) (total_eq : machine.total = 0)
      (past_eq : past = List.replicate count .readInterrupted ++ [.read []])

theorem Untouched.turn {session : InflateSession ι} {past : List Exchange}
    {machine next : Decompression ρ ω (InflateSession ι)} {exchange : Exchange}
    (finished : session.finished = true) (untouched : Untouched session past machine)
    (turned : Decompression.turn machine = (exchange, .next next)) :
    Untouched session (past ++ [exchange]) next := by
  have turns := turned_turn machine
  rw [turned] at turns
  cases turns with
  | next happens chunk_eq goes =>
      cases untouched with
      | reading count same stage_eq total_eq past_eq =>
          have asked : exchange.party = .source := by
            rw [goes.party_eq, stage_eq]
            rfl
          have same := (session_eq_of_happens happens (by simp [asked])).trans same
          rw [stage_eq] at goes
          obtain ⟨stays, ⟨rfl, flushing⟩ | ⟨content, _, rfl, decoding⟩ | ⟨rfl, reading⟩⟩ :=
            goes.of_read
          · exact .flushing count same flushing (stays.trans total_eq)
              (congrArg (· ++ _) past_eq)
          · exact .brought same decoding
          · refine .reading (count + 1) same reading (stays.trans total_eq) ?_
            rw [past_eq, ← List.replicate_succ']
      | brought same stage_eq =>
          rw [← same] at finished
          rw [turn_of_finished finished stage_eq] at turned
          cases turned
      | flushing count same stage_eq =>
          rw [stage_eq] at goes
          exact absurd goes Goes.not_of_flush

theorem untouched_of_leads {source : ρ} {sink : ω} {session : InflateSession ι}
    {chunk : Nat} {past : List Exchange} {machine : Decompression ρ ω (InflateSession ι)}
    (finished : session.finished = true)
    (leads : Leads turn (start source sink session chunk) past machine) :
    Untouched session past machine := by
  have untouched : Untouched session [] (start source sink session chunk) :=
    .reading 0 rfl rfl rfl rfl
  exact leads.holds (Untouched.turn finished) untouched

inductive Succeeds (source : ρ) (sink : ω) (session : InflateSession ι)
    (chunk : Nat) (total : UInt64) (report : Report ρ ω (InflateSession ι)) : Prop
  | reached (unfinished : session.finished = false)
      (reaches : Reaches source sink session chunk report.transcript)
  | finished (count : Nat) (finished : session.finished = true)
      (transcript_eq : report.transcript =
        List.replicate count .readInterrupted ++ [.read [], .flushed])
      (session_eq : report.parties.session = session) (total_eq : total = 0)

theorem flushes_of_ok {machine : Decompression ρ ω (InflateSession ι)} {total : UInt64}
    {exchange : Exchange} {parties : Parties ρ ω (InflateSession ι)}
    (done : turn machine = (exchange, .done (.ok total) parties)) :
    machine.stage = .flush ∧ machine.total = total ∧ exchange = .flushed ∧
      parties.session = machine.parties.session := by
  have turned := turned_turn machine
  rw [done] at turned
  cases turned with
  | done happens stops =>
      generalize machine.stage = stage, machine.total = written at stops
      cases stops with
      | flushed =>
          exact ⟨rfl, rfl, rfl, session_eq_of_happens happens Party.noConfusion⟩

theorem succeeds_of_repeatTurns {source : ρ} {sink : ω} {session : InflateSession ι}
    {chunk turns : Nat} {total : UInt64} {report : Report ρ ω (InflateSession ι)}
    (ended : repeatTurns turn (start source sink session chunk) [] turns = some report)
    (succeeds : report.result = .ok total) :
    Succeeds source sink session chunk total report := by
  obtain ⟨past, last, exchange, leads, done, transcript_eq⟩ := leads_of_repeatTurns ended
  rw [succeeds] at done
  rw [List.reverse_nil, List.nil_append] at transcript_eq
  obtain ⟨stage_eq, total_eq, rfl, session_eq⟩ := flushes_of_ok done
  cases finished : session.finished with
  | false =>
      have accounts := accounts_of_leads finished leads
      have ended : Decompressor.isFinished last.parties.session = true := by
        rw [accounts.isFinished_iff, stage_eq]
        trivial
      refine .reached finished ?_
      rw [transcript_eq]
      exact reaches_of_leads finished leads ended (congrArg Prod.fst done)
  | true =>
      cases untouched_of_leads finished leads with
      | reading count same reading => rw [stage_eq] at reading; cases reading
      | brought same decoding => rw [stage_eq] at decoding; cases decoding
      | flushing count same _ nothing past_eq =>
          refine .finished count finished ?_ (session_eq.trans same)
            (total_eq.symm.trans nothing)
          rw [transcript_eq, past_eq, List.append_assoc]
          rfl

private theorem leads_of_nothing {source : ρ} {chunk : Nat}
    (nothing : Source.Delivers chunk source []) {session : InflateSession ι}
    (finished : session.finished = true) (sink : ω) :
    ∃ past next, Leads turn (start source sink session chunk) past
      ⟨⟨next, sink, session⟩, chunk, .flush, 0⟩ := by
  have finished : Decompressor.isFinished session = true := finished
  generalize bytes_eq : ([] : Bytes) = bytes at nothing
  induction nothing with
  | @ends source next fits read =>
      have turned : turn (start source sink session chunk) =
          (.read [], .next ⟨⟨next, sink, session⟩, chunk, .flush, 0⟩) := by
        simp only [turn, start, read, finished, if_true]
      exact ⟨_, next, .step turned (.refl _)⟩
  | @interrupted source next bytes read later induction =>
      obtain ⟨past, last, leads⟩ := induction bytes_eq
      have turned : turn (start source sink session chunk) =
          (.readInterrupted, .next (start next sink session chunk)) := by
        simp only [turn, start, read]
      exact ⟨_, last, .step turned leads⟩
  | brings read nonempty =>
      exact absurd (List.append_eq_nil_iff.1 bytes_eq.symm).1 nonempty

theorem reports_of_nothing {source : ρ} {chunk : Nat}
    (nothing : Source.Delivers chunk source []) {session : InflateSession ι}
    (finished : session.finished = true) {sink flushed : ω}
    (flushes : Sink.flush sink = (.ok (), flushed)) :
    ∃ report, Reports (repeatTurns turn (start source sink session chunk) []) report ∧
      report.result = .ok 0 := by
  obtain ⟨past, next, leads⟩ := leads_of_nothing nothing finished sink
  have done : turn ⟨⟨next, sink, session⟩, chunk, .flush, 0⟩ =
      (.flushed, .done (.ok 0) ⟨next, flushed, session⟩) := by
    simp only [turn, flushes]
  exact ⟨_, (leads.runs (.done done)).reports, rfl⟩

end Decompression

/-- A decompression succeeds with a call that comes to the end of the stream, on bytes
from its own source, or else on a session that was finished before and a source that has
nothing more, and there it always succeeds. -/
theorem decompress_succeeds {ρ ω ι : Type} [Source ρ] [Sink ω] [InflateEngine ι]
    (source : ρ) (sink : ω) (session : InflateSession ι) {chunk : Nat} (roomy : 0 < chunk)
    (fits : chunk ≤ largestChunk) :
    (∀ turns report total,
      decompress source sink session chunk turns = some report →
      report.result = .ok total →
      Decompression.Succeeds source sink session chunk total report) ∧
    (session.finished = true → Source.Delivers chunk source [] →
      ∀ flushed, Sink.flush sink = (.ok (), flushed) →
      ∃ report, Reports (decompress source sink session chunk) report ∧
        report.result = .ok 0) := by
  have decompress_eq (turns : Nat) : decompress source sink session chunk turns =
      repeatTurns Decompression.turn (Decompression.start source sink session chunk) []
        turns := by
    rw [decompress, checkChunk_ok roomy fits]
  constructor
  · intro turns report total ended succeeds
    rw [decompress_eq] at ended
    exact Decompression.succeeds_of_repeatTurns ended succeeds
  · intro finished nothing flushed flushes
    rw [funext decompress_eq]
    exact Decompression.reports_of_nothing nothing finished flushes

private theorem ok_of_toOption {ρ ω σ : Type} {report : Report ρ ω σ} {total : UInt64}
    (given : report.result.toOption = some total) : report.result = .ok total := by
  cases result : report.result with
  | error error => rw [result] at given; cases given
  | ok other => rw [result] at given; cases given; rfl

def afterEmptyStream : InflateSession Inflate.Decoder :=
  (InflateSession.new .deflate).afterAll [.setUp, .decompress [0x03, 0x00] 1]

theorem decompress_succeeds_of_one_byte :
    let source := ScriptedSource.new [.interrupted] [0x4b, 0x04, 0x00, 0x07]
    let nothing := ScriptedSource.new [.interrupted] []
    let session : InflateSession Inflate.Decoder :=
      (InflateSession.new .deflate).afterAll [.setUp]
    0 < 4 ∧ 4 ≤ largestChunk ∧
    (∃ report, decompress source LimitedSink.hesitant session 4 6 = some report ∧
      report.result = .ok 1 ∧
      Decompression.Reaches source LimitedSink.hesitant session 4 report.transcript) ∧
    afterEmptyStream.finished = true ∧ Source.Delivers 4 nothing [] ∧
    ∃ report,
      Reports (decompress nothing LimitedSink.hesitant afterEmptyStream 4) report ∧
      report.result = .ok 0 := by
  intro source nothing session
  have fits : 4 ≤ largestChunk := by decide
  have roomy : 0 < 4 := Nat.zero_lt_succ 3
  have finished : afterEmptyStream.finished = true := by decide +kernel
  have delivers : Source.Delivers 4 nothing [] :=
    ScriptedSource.delivers_new [.interrupted] [] (by simp [Reading.IsHarmless]) roomy
  have results : (decompress source LimitedSink.hesitant session 4 6).map
      (fun report => report.result.toOption) = some (some 1) := by decide +kernel
  obtain ⟨report, ended, given⟩ := Option.map_eq_some_iff.1 results
  have succeeds := ok_of_toOption given
  obtain ⟨reaches, _⟩ :=
    decompress_succeeds source LimitedSink.hesitant session roomy fits
  obtain ⟨_, repeats⟩ :=
    decompress_succeeds nothing LimitedSink.hesitant afterEmptyStream roomy fits
  refine ⟨roomy, fits, ⟨report, ended, succeeds, ?_⟩, finished, delivers,
    repeats finished delivers _ rfl⟩
  cases reaches 6 report 1 ended succeeds with
  | reached unfinished reaches => exact reaches
  | finished count finished => cases finished

/-- The source is empty, and no call is made. -/
theorem success_not_always_reached :
    ¬∀ (ρ ω ι : Type) [Source ρ] [Sink ω] [InflateEngine ι] (source : ρ) (sink : ω)
      (format : Format) (requests : List InflateSession.Request) (chunk turns : Nat)
      (total : UInt64) (report : Report ρ ω (InflateSession ι)),
      let session := (InflateSession.new format : InflateSession ι).afterAll requests
      0 < chunk → chunk ≤ largestChunk →
      decompress source sink session chunk turns = some report →
      report.result = .ok total →
      Decompression.Reaches source sink session chunk report.transcript := by
  intro always
  let source := ScriptedSource.new [] []
  have results : (decompress source LimitedSink.hesitant afterEmptyStream 8 2).map
      (fun report => report.result.toOption) = some (some 0) := by decide +kernel
  have transcripts : (decompress source LimitedSink.hesitant afterEmptyStream 8 2).map
      (fun report => report.transcript) = some [.read [], .flushed] := by decide +kernel
  obtain ⟨report, ended, given⟩ := Option.map_eq_some_iff.1 results
  rw [ended, Option.map_some, Option.some.injEq] at transcripts
  have succeeds := ok_of_toOption given
  cases always _ _ _ source LimitedSink.hesitant .deflate
    [.setUp, .decompress [0x03, 0x00] 1] 8 2 0 report (by decide) (by decide) ended succeeds
    with
  | @of_call before after middle next input output consumed transcript_eq =>
      have member : Exchange.called input consumed output ∈ report.transcript := by
        rw [transcript_eq]
        exact List.mem_append_right before List.mem_cons_self
      rw [transcripts] at member
      simp at member

end StreamCodec.Stream
