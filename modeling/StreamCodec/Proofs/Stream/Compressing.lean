import StreamCodec.Proofs.Stream.Ledger
import StreamCodec.Session.Scripted
import StreamCodec.Stream.Compression

namespace StreamCodec.Stream.Compression

/-! A compression by any session, from any source, into any sink. Nothing that the session
gave is lost on the way to the sink, whoever fails. -/

/-- A call that does nothing has failed too. -/
def failure? : Exchange → Option CodecError
  | .called _ 0 [] => some (.engineContract .compressorStuck)
  | exchange => exchange.failure?

private theorem failure?_of_failure {exchange : Exchange} {error : CodecError}
    (failed : exchange.failure? = some error) : failure? exchange = some error := by
  unfold failure?
  split
  · cases failed
  · exact failed

private theorem isSilent_of_failure {exchange : Exchange} {error : CodecError}
    (failed : failure? exchange = some error) : exchange.IsSilent := by
  unfold failure? at failed
  split at failed
  · exact ⟨rfl, rfl, rfl, rfl⟩
  · exact Exchange.isSilent_of_failure failed

namespace Stage

/-- What was read and not yet compressed. -/
def pending : Stage → Bytes
  | feed pending => pending
  | write _ onward => onward.pending
  | _ => []

/-- What the session gave and the sink does not have yet. -/
def unwritten : Stage → Bytes
  | write bytes onward => bytes ++ onward.unwritten
  | _ => []

def IsEnding : Stage → Prop
  | read | feed _ => False
  | finish | flush => True
  | write _ onward => onward.IsEnding

def IsEnded : Stage → Prop
  | flush => True
  | write _ onward => onward.IsEnded
  | _ => False

@[simp] theorem pending_writing (bytes : Bytes) (onward : Stage) :
    (writing bytes onward).pending = onward.pending := by
  cases bytes <;> rfl

@[simp] theorem unwritten_writing (bytes : Bytes) (onward : Stage) :
    (writing bytes onward).unwritten = bytes ++ onward.unwritten := by
  cases bytes <;> rfl

@[simp] theorem isEnding_writing (bytes : Bytes) (onward : Stage) :
    (writing bytes onward).IsEnding ↔ onward.IsEnding := by
  cases bytes <;> rfl

@[simp] theorem isEnded_writing (bytes : Bytes) (onward : Stage) :
    (writing bytes onward).IsEnded ↔ onward.IsEnded := by
  cases bytes <;> rfl

@[simp] theorem pending_feeding (pending : Bytes) :
    (feeding pending).pending = pending := by
  cases pending <;> rfl

@[simp] theorem unwritten_feeding (pending : Bytes) :
    (feeding pending).unwritten = [] := by
  cases pending <;> rfl

@[simp] theorem not_isEnding_feeding (pending : Bytes) :
    ¬(feeding pending).IsEnding := by
  cases pending <;> exact id

@[simp] theorem not_isEnded_feeding (pending : Bytes) :
    ¬(feeding pending).IsEnded := by
  cases pending <;> exact id

end Stage

/-- A turn that is not the last, told by the stage and the total it starts from and those
it leads to. -/
inductive Goes : Stage → UInt64 → Exchange → Stage → UInt64 → Prop
  | ends (total : UInt64) : Goes .read total (.read []) .finish total
  | brings {content : Bytes} (nonempty : content ≠ []) (total : UInt64) :
      Goes .read total (.read content) (.feed content) total
  | readInterrupted (total : UInt64) : Goes .read total .readInterrupted .read total
  | feeds {consumed : Nat} {output : Bytes} (busy : ¬(consumed = 0 ∧ output = []))
      (pending : Bytes) (total : UInt64) :
      Goes (.feed pending) total (.called pending consumed output)
        (.writing output (.feeding (pending.drop consumed))) (total + byteCount output)
  | retries (output : Bytes) (total : UInt64) :
      Goes .finish total (.finished output true) (.writing output .finish)
        (total + byteCount output)
  | finishes (output : Bytes) (total : UInt64) :
      Goes .finish total (.finished output false) (.writing output .flush)
        (total + byteCount output)
  | writes {count : Nat} (positive : 0 < count) (bytes : Bytes) (onward : Stage)
      (total : UInt64) :
      Goes (.write bytes onward) total (.wrote bytes count)
        (.writing (bytes.drop count) onward) total
  | writeInterrupted (bytes : Bytes) (onward : Stage) (total : UInt64) :
      Goes (.write bytes onward) total .writeInterrupted (.writing bytes onward) total

namespace Goes

variable {stage next : Stage} {total after : UInt64} {exchange : Exchange}

private theorem taken_eq (goes : Goes stage total exchange next after) :
    exchange.taken ++ next.pending = stage.pending ++ exchange.delivered := by
  cases goes <;> simp [Exchange.taken, Exchange.delivered, Stage.pending]

private theorem received_eq (goes : Goes stage total exchange next after) :
    exchange.received ++ next.unwritten = stage.unwritten ++ exchange.produced := by
  cases goes with
  | writes positive bytes onward total =>
      simp only [Exchange.received, Exchange.produced, Stage.unwritten,
        Stage.unwritten_writing, List.append_nil]
      rw [← List.append_assoc, List.take_append_drop]
  | _ => simp [Exchange.received, Exchange.produced, Stage.unwritten]

private theorem total_eq (goes : Goes stage total exchange next after) :
    after = total + byteCount exchange.produced := by
  cases goes <;> simp [Exchange.produced]

private theorem isEnding_iff (goes : Goes stage total exchange next after) :
    next.IsEnding ↔ stage.IsEnding ∨ exchange = .read [] := by
  cases goes with
  | brings nonempty total => simp [Stage.IsEnding, nonempty]
  | _ => simp [Stage.IsEnding]

private theorem isEnded_iff (goes : Goes stage total exchange next after) :
    next.IsEnded ↔ stage.IsEnded ∨ ∃ output, exchange = .finished output false := by
  cases goes <;> simp [Stage.IsEnded]

private theorem not_failed (goes : Goes stage total exchange next after) :
    failure? exchange = none := by
  cases goes with
  | feeds busy pending total =>
      unfold failure?
      split
      · next same =>
          cases same
          exact absurd ⟨rfl, rfl⟩ busy
      · rfl
  | @writes count positive bytes onward total =>
      obtain ⟨less, rfl⟩ := Nat.exists_eq_add_one_of_ne_zero (Nat.ne_of_gt positive)
      rfl
  | _ => rfl

private theorem not_flushed (goes : Goes stage total exchange next after) :
    exchange ≠ .flushed := by
  cases goes <;> exact Exchange.noConfusion

end Goes

inductive Stops : Stage → UInt64 → Exchange → Except CodecError UInt64 → Prop
  | failed {exchange : Exchange} {error : CodecError}
      (failed : failure? exchange = some error) (stage : Stage) (total : UInt64) :
      Stops stage total exchange (.error error)
  | flushed (total : UInt64) : Stops .flush total .flushed (.ok total)

inductive Calls {σ : Type} [Compressor σ] (chunk : Nat) : σ → Exchange → σ → Prop
  | compressed {session next : σ} {input : Bytes} {transfer : Transfer input chunk}
      (answer : Compressor.compress session input chunk = (.ok transfer, next)) :
      Calls chunk session (.called input transfer.consumed transfer.output) next
  | compressFailed {session next : σ} {input : Bytes} {error : CodecError}
      (answer : Compressor.compress session input chunk = (.error error, next)) :
      Calls chunk session (.callFailed error) next
  | finished {session next : σ} {drained : Drained chunk}
      (answer : Compressor.finish session chunk = (.ok drained, next)) :
      Calls chunk session (.finished drained.output drained.retry) next
  | finishFailed {session next : σ} {error : CodecError}
      (answer : Compressor.finish session chunk = (.error error, next)) :
      Calls chunk session (.callFailed error) next

variable {ρ ω σ : Type} [Source ρ] [Sink ω] [Compressor σ]

inductive Turned (machine : Compression ρ ω σ) :
    Exchange × Turn (Compression ρ ω σ) ρ ω σ → Prop
  | next {exchange : Exchange} {next : Compression ρ ω σ}
      (happens : Happens (Calls machine.chunk) machine.chunk machine.parties exchange
        next.parties)
      (chunk_eq : next.chunk = machine.chunk)
      (goes : Goes machine.stage machine.total exchange next.stage next.total) :
      Turned machine (exchange, .next next)
  | done {exchange : Exchange} {result : Except CodecError UInt64}
      {parties : Parties ρ ω σ}
      (happens : Happens (Calls machine.chunk) machine.chunk machine.parties exchange
        parties)
      (stops : Stops machine.stage machine.total exchange result) :
      Turned machine (exchange, .done result parties)

private theorem turned_read (source : ρ) (sink : ω) (session : σ) (chunk : Nat)
    (total : UInt64) :
    Turned ⟨⟨source, sink, session⟩, chunk, .read, total⟩
      (turn ⟨⟨source, sink, session⟩, chunk, .read, total⟩) := by
  rcases answer : Source.read source chunk with ⟨⟨content, fits⟩ | _ | text, next⟩
  · cases content with
    | nil =>
        simp only [turn, answer]
        exact .next (.read answer sink session) rfl (.ends total)
    | cons byte content =>
        simp only [turn, answer]
        exact .next (.read answer sink session) rfl
          (.brings (List.cons_ne_nil byte content) total)
  · simp only [turn, answer]
    exact .next (.readInterrupted answer sink session) rfl (.readInterrupted total)
  · simp only [turn, answer]
    exact .done (.readFailed answer sink session) (.failed rfl _ total)

private theorem turned_feed (source : ρ) (sink : ω) (session : σ) (chunk : Nat)
    (total : UInt64) (pending : Bytes) :
    Turned ⟨⟨source, sink, session⟩, chunk, .feed pending, total⟩
      (turn ⟨⟨source, sink, session⟩, chunk, .feed pending, total⟩) := by
  rcases answer : Compressor.compress session pending chunk with
    ⟨error | transfer, next⟩
  · simp only [turn, answer]
    exact .done (.session (.compressFailed answer) source sink) (.failed rfl _ total)
  · simp only [turn, answer]
    by_cases idle : transfer.IsIdle
    · have stuck : failure? (.called pending transfer.consumed transfer.output) =
          some (.engineContract .compressorStuck) := by
        rw [idle.1, idle.2]
        rfl
      rw [if_pos idle]
      exact .done (.session (.compressed answer) source sink) (.failed stuck _ total)
    · rw [if_neg idle]
      exact .next (.session (.compressed answer) source sink) rfl
        (.feeds idle pending total)

private theorem turned_finish (source : ρ) (sink : ω) (session : σ) (chunk : Nat)
    (total : UInt64) :
    Turned ⟨⟨source, sink, session⟩, chunk, .finish, total⟩
      (turn ⟨⟨source, sink, session⟩, chunk, .finish, total⟩) := by
  rcases answer : Compressor.finish session chunk with
    ⟨error | ⟨output, retry, fits⟩, next⟩
  · simp only [turn, answer]
    exact .done (.session (.finishFailed answer) source sink) (.failed rfl _ total)
  · have happens : Happens (Calls chunk) chunk ⟨source, sink, session⟩
        (.finished output retry) ⟨source, sink, next⟩ :=
      .session (.finished answer) source sink
    simp only [turn, answer]
    cases retry with
    | true => exact .next happens rfl (.retries output total)
    | false => exact .next happens rfl (.finishes output total)

private theorem turned_write (source : ρ) (sink : ω) (session : σ) (chunk : Nat)
    (total : UInt64) (bytes : Bytes) (onward : Stage) :
    Turned ⟨⟨source, sink, session⟩, chunk, .write bytes onward, total⟩
      (turn ⟨⟨source, sink, session⟩, chunk, .write bytes onward, total⟩) := by
  rcases offers : offer sink bytes with ⟨exchange, left, next⟩
  obtain ⟨happens, offered⟩ :=
    happens_of_offer offers (Calls chunk) chunk source session
  simp only [turn, offers]
  cases offered with
  | wrote positive => exact .next happens rfl (.writes positive bytes onward total)
  | interrupted => exact .next happens rfl (.writeInterrupted bytes onward total)
  | failed failed => exact .done happens (.failed (failure?_of_failure failed) _ total)

private theorem turned_flush (source : ρ) (sink : ω) (session : σ) (chunk : Nat)
    (total : UInt64) :
    Turned ⟨⟨source, sink, session⟩, chunk, .flush, total⟩
      (turn ⟨⟨source, sink, session⟩, chunk, .flush, total⟩) := by
  rcases answer : Sink.flush sink with ⟨text | ⟨⟩, next⟩
  · simp only [turn, answer]
    exact .done (.flushFailed answer source session) (.failed rfl _ total)
  · simp only [turn, answer]
    exact .done (.flushed answer source session) (.flushed total)

theorem turned_turn (machine : Compression ρ ω σ) :
    Turned machine (turn machine) := by
  rcases machine with ⟨⟨source, sink, session⟩, chunk, stage, total⟩
  cases stage with
  | read => exact turned_read source sink session chunk total
  | feed pending => exact turned_feed source sink session chunk total pending
  | finish => exact turned_finish source sink session chunk total
  | write bytes onward => exact turned_write source sink session chunk total bytes onward
  | flush => exact turned_flush source sink session chunk total

structure Accounts (first : Parties ρ ω σ) (chunk : Nat) (past : List Exchange)
    (machine : Compression ρ ω σ) : Prop where
  chunk_eq : machine.chunk = chunk
  happened : Happened (Calls chunk) chunk first past machine.parties
  taken_eq : past.flatMap Exchange.taken ++ machine.stage.pending =
    past.flatMap Exchange.delivered
  received_eq : received past ++ machine.stage.unwritten =
    past.flatMap Exchange.produced
  total_eq : machine.total = byteCount (past.flatMap Exchange.produced)
  isEnding_iff : machine.stage.IsEnding ↔ .read [] ∈ past
  isEnded_iff : machine.stage.IsEnded ↔ ∃ output, .finished output false ∈ past
  not_failed : ∀ exchange ∈ past, failure? exchange = none
  not_flushed : .flushed ∉ past

inductive Concludes (transcript : List Exchange) : Except CodecError UInt64 → Prop
  | failed {before : List Exchange} {exchange : Exchange} {error : CodecError}
      (transcript_eq : transcript = before ++ [exchange])
      (failed : failure? exchange = some error)
      (not_failed : ∀ earlier ∈ before, failure? earlier = none)
      (not_flushed : .flushed ∉ before) : Concludes transcript (.error error)
  | flushed {before : List Exchange} {total : UInt64}
      (transcript_eq : transcript = before ++ [.flushed])
      (not_failed : ∀ earlier ∈ before, failure? earlier = none)
      (not_flushed : .flushed ∉ before)
      (ending : .read [] ∈ before) (ended : ∃ output, .finished output false ∈ before)
      (taken_eq : before.flatMap Exchange.taken = before.flatMap Exchange.delivered)
      (received_eq : received before = before.flatMap Exchange.produced)
      (total_eq : total = byteCount (received before)) : Concludes transcript (.ok total)

/-- Between any parties, what is compressed is what the source brought and what is written
is what the session gave, in that order and without a gap. -/
structure Faithful (source : ρ) (sink : ω) (session : σ) (chunk : Nat)
    (report : Report ρ ω σ) : Prop where
  happened : Happened (Calls chunk) chunk ⟨source, sink, session⟩ report.transcript
    report.parties
  taken_isPrefix : report.transcript.flatMap Exchange.taken <+:
    report.transcript.flatMap Exchange.delivered
  /-- Whenever the session is asked to end the stream, it has got everything and has not
  ended it before. -/
  finish : ∀ past machine, Leads turn (start source sink session chunk) past machine →
    machine.stage = .finish →
      past <+: report.transcript ∧ .read [] ∈ past ∧
        past.flatMap Exchange.taken = past.flatMap Exchange.delivered ∧
        ∀ output, .finished output false ∉ past
  received_isPrefix : received report.transcript <+:
    report.transcript.flatMap Exchange.produced
  concludes : Concludes report.transcript report.result

namespace Accounts

variable {first parties : Parties ρ ω σ} {chunk : Nat} {past : List Exchange}
  {machine next : Compression ρ ω σ} {exchange : Exchange}
  {result : Except CodecError UInt64}

theorem start (source : ρ) (sink : ω) (session : σ) (chunk : Nat) :
    Accounts ⟨source, sink, session⟩ chunk []
      (Compression.start source sink session chunk) where
  chunk_eq := rfl
  happened := .nothing _
  taken_eq := rfl
  received_eq := rfl
  total_eq := rfl
  isEnding_iff := by simp [Compression.start, Stage.IsEnding]
  isEnded_iff := by simp [Compression.start, Stage.IsEnded]
  not_failed := by simp
  not_flushed := by simp

section

variable (accounts : Accounts first chunk past machine) {stage : Stage} {total : UInt64}
  (goes : Goes machine.stage machine.total exchange stage total)

include accounts goes

private theorem taken_concat :
    (past ++ [exchange]).flatMap Exchange.taken ++ stage.pending =
      (past ++ [exchange]).flatMap Exchange.delivered := by
  rw [Exchange.flatMap_concat, Exchange.flatMap_concat, List.append_assoc,
    goes.taken_eq, ← List.append_assoc, accounts.taken_eq]

private theorem received_concat :
    received (past ++ [exchange]) ++ stage.unwritten =
      (past ++ [exchange]).flatMap Exchange.produced := by
  rw [Stream.received_concat, Exchange.flatMap_concat, List.append_assoc,
    goes.received_eq, ← List.append_assoc, accounts.received_eq]

private theorem total_concat :
    total = byteCount ((past ++ [exchange]).flatMap Exchange.produced) := by
  rw [Exchange.flatMap_concat, byteCount_append, ← accounts.total_eq, goes.total_eq]

private theorem isEnding_concat_iff : stage.IsEnding ↔ .read [] ∈ past ++ [exchange] := by
  rw [goes.isEnding_iff, accounts.isEnding_iff, List.mem_append, List.mem_singleton,
    eq_comm]

private theorem isEnded_concat_iff :
    stage.IsEnded ↔ ∃ output, .finished output false ∈ past ++ [exchange] := by
  simp only [goes.isEnded_iff, accounts.isEnded_iff, List.mem_append,
    List.mem_singleton, exists_or, eq_comm]

private theorem not_failed_concat :
    ∀ earlier ∈ past ++ [exchange], failure? earlier = none := by
  rw [List.forall_mem_append, List.forall_mem_singleton]
  exact ⟨accounts.not_failed, goes.not_failed⟩

private theorem not_flushed_concat : .flushed ∉ past ++ [exchange] := by
  simp only [List.mem_append, List.mem_singleton, not_or]
  exact ⟨accounts.not_flushed, Ne.symm goes.not_flushed⟩

end

theorem turn (accounts : Accounts first chunk past machine)
    (turned : Compression.turn machine = (exchange, .next next)) :
    Accounts first chunk (past ++ [exchange]) next := by
  have turns := turned_turn machine
  rw [turned] at turns
  cases turns with
  | next happens same goes =>
      obtain rfl := accounts.chunk_eq
      exact
        { chunk_eq := same
          happened := accounts.happened.concat happens
          taken_eq := accounts.taken_concat goes
          received_eq := accounts.received_concat goes
          total_eq := accounts.total_concat goes
          isEnding_iff := accounts.isEnding_concat_iff goes
          isEnded_iff := accounts.isEnded_concat_iff goes
          not_failed := accounts.not_failed_concat goes
          not_flushed := accounts.not_flushed_concat goes }

theorem taken_all (accounts : Accounts first chunk past machine)
    (nothing : machine.stage.pending = []) :
    past.flatMap Exchange.taken = past.flatMap Exchange.delivered := by
  rw [← accounts.taken_eq, nothing, List.append_nil]

theorem received_all (accounts : Accounts first chunk past machine)
    (nothing : machine.stage.unwritten = []) :
    received past = past.flatMap Exchange.produced := by
  rw [← accounts.received_eq, nothing, List.append_nil]

theorem finish (accounts : Accounts first chunk past machine)
    (finishing : machine.stage = .finish) :
    .read [] ∈ past ∧
      past.flatMap Exchange.taken = past.flatMap Exchange.delivered ∧
      ∀ output, .finished output false ∉ past := by
  refine ⟨accounts.isEnding_iff.1 ?_, accounts.taken_all ?_, fun output member => ?_⟩
  · rw [finishing]
    trivial
  · rw [finishing]
    rfl
  · have ended := accounts.isEnded_iff.2 ⟨output, member⟩
    rw [finishing] at ended
    exact ended

theorem concludes (accounts : Accounts first chunk past machine)
    (stops : Stops machine.stage machine.total exchange result) :
    Concludes (past ++ [exchange]) result := by
  rcases machine with ⟨parties, chunk, stage, total⟩
  cases stops with
  | failed failed =>
      exact .failed rfl failed accounts.not_failed accounts.not_flushed
  | flushed =>
      have received_eq := accounts.received_all rfl
      refine .flushed rfl accounts.not_failed accounts.not_flushed
        (accounts.isEnding_iff.1 trivial) (accounts.isEnded_iff.1 trivial)
        (accounts.taken_all rfl) received_eq ?_
      rw [received_eq]
      exact accounts.total_eq

end Accounts

private theorem Stops.isSilent {stage : Stage} {total : UInt64} {exchange : Exchange}
    {result : Except CodecError UInt64} (stops : Stops stage total exchange result) :
    exchange.IsSilent := by
  cases stops with
  | failed failed => exact isSilent_of_failure failed
  | flushed => exact Exchange.isSilent_flushed

theorem accounts_of_leads {source : ρ} {sink : ω} {session : σ} {chunk : Nat}
    {past : List Exchange} {machine : Compression ρ ω σ}
    (leads : Leads turn (start source sink session chunk) past machine) :
    Accounts ⟨source, sink, session⟩ chunk past machine :=
  leads.holds Accounts.turn (Accounts.start source sink session chunk)

theorem faithful_of_repeatTurns {source : ρ} {sink : ω} {session : σ}
    {chunk turns : Nat} {report : Report ρ ω σ}
    (ended : repeatTurns turn (start source sink session chunk) [] turns =
      some report) :
    Faithful source sink session chunk report := by
  obtain ⟨past, last, exchange, leads, done, transcript_eq⟩ :=
    leads_of_repeatTurns ended
  rw [List.reverse_nil, List.nil_append] at transcript_eq
  have accounts := accounts_of_leads leads
  have turned := turned_turn last
  rw [done] at turned
  obtain _ | ⟨happens, stops⟩ := turned
  have silent := stops.isSilent
  exact
    { happened := by
        rw [accounts.chunk_eq] at happens
        rw [transcript_eq]
        exact accounts.happened.concat happens
      taken_isPrefix := by
        rw [transcript_eq, Exchange.flatMap_concat_of_nil silent.taken_eq,
          Exchange.flatMap_concat_of_nil silent.delivered_eq]
        exact ⟨_, accounts.taken_eq⟩
      finish := by
        intro before machine leadsTo finishing
        refine ⟨?_, (accounts_of_leads leadsTo).finish finishing⟩
        rw [transcript_eq]
        exact (leadsTo.isPrefix_of_done leads done).trans (List.prefix_append _ _)
      received_isPrefix := by
        rw [transcript_eq, received, Exchange.flatMap_concat_of_nil silent.received_eq,
          Exchange.flatMap_concat_of_nil silent.produced_eq]
        exact ⟨_, accounts.received_eq⟩
      concludes := transcript_eq ▸ accounts.concludes stops }

end Compression

/-- Whatever the source, the sink and the session do, a compression that comes to an end
was faithful to them. -/
theorem compress_faithful {ρ ω σ : Type} [Source ρ] [Sink ω] [Compressor σ]
    {source : ρ} {sink : ω} {session : σ} {chunk turns : Nat} {report : Report ρ ω σ}
    (ended : compress source sink session chunk turns = some report) (roomy : 0 < chunk)
    (fits : chunk ≤ largestChunk) :
    Compression.Faithful source sink session chunk report := by
  rw [compress, checkChunk_ok roomy fits] at ended
  exact Compression.faithful_of_repeatTurns ended

theorem compress_faithful_of_interruptions :
    let source := ScriptedSource.new [.upTo 1, .interrupted] [1, 2, 3]
    let session : Scripted.CompressorScript :=
      ⟨[.ok (.upTo 1, .upTo 1), .ok (.upTo 1, .upTo 0)], [.ok (.upTo 2, true)], .empty⟩
    ∃ report,
      compress source LimitedSink.hesitant session 2 15 = some report ∧
      0 < 2 ∧ 2 ≤ largestChunk ∧
      report.result = .ok 3 ∧ report.parties.sink.content = [0, 1, 2] ∧
      Compression.Faithful source LimitedSink.hesitant session 2 report := by
  intro source session
  have results : (compress source LimitedSink.hesitant session 2 15).map
      (fun report => report.result) = some (.ok 3) := by
    simp only [source, session]
    rfl
  have contents : (compress source LimitedSink.hesitant session 2 15).map
      (fun report => report.parties.sink.content) = some [0, 1, 2] := by decide
  obtain ⟨report, ended, result_eq⟩ := Option.map_eq_some_iff.1 results
  rw [ended] at contents
  have fits : 2 ≤ largestChunk := by decide
  exact ⟨report, ended, Nat.two_pos, fits, result_eq, Option.some.inj contents,
    compress_faithful ended Nat.two_pos fits⟩

end StreamCodec.Stream
