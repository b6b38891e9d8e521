import StreamCodec.Proofs.Stream.Ledger
import StreamCodec.Session.Scripted
import StreamCodec.Stream.Decompression

namespace StreamCodec.Stream

/-- The call left room, or it did nothing at all. -/
def Exchange.LeavesOff (chunk : Nat) : Exchange → Prop
  | .called _ consumed output => output.length < chunk ∨ consumed = 0 ∧ output = []
  | _ => False

namespace Decompression

/-! A decompression by any session, from any source, into any sink. Nothing is read behind
the end of the stream, and nothing that the session gave before it is lost. -/

namespace Stage

def pending : Stage → Bytes
  | decode pending => pending
  | write _ onward => onward.pending
  | _ => []

def unwritten : Stage → Bytes
  | write bytes onward => bytes ++ onward.unwritten
  | _ => []

def IsReading : Stage → Prop
  | read => True
  | write _ onward => onward.IsReading
  | _ => False

def IsEnded : Stage → Prop
  | flush => True
  | write _ onward => onward.IsEnded
  | _ => False

def party : Stage → Party
  | read => .source
  | decode _ => .session
  | write _ _ => .sink
  | flush => .sink

@[simp] theorem pending_writing (bytes : Bytes) (onward : Stage) :
    (writing bytes onward).pending = onward.pending := by
  cases bytes <;> rfl

@[simp] theorem unwritten_writing (bytes : Bytes) (onward : Stage) :
    (writing bytes onward).unwritten = bytes ++ onward.unwritten := by
  cases bytes <;> rfl

@[simp] theorem isReading_writing (bytes : Bytes) (onward : Stage) :
    (writing bytes onward).IsReading ↔ onward.IsReading := by
  cases bytes <;> rfl

@[simp] theorem isEnded_writing (bytes : Bytes) (onward : Stage) :
    (writing bytes onward).IsEnded ↔ onward.IsEnded := by
  cases bytes <;> rfl

private theorem party_of_isEnded {stage : Stage} (ended : stage.IsEnded) :
    stage.party = .sink := by
  cases stage with
  | read => exact ended.elim
  | decode pending => exact ended.elim
  | write bytes onward => rfl
  | flush => rfl

private theorem eq_read_of_party {stage : Stage} (asks : stage.party = .source) :
    stage = .read := by
  cases stage with
  | read => rfl
  | decode pending => cases asks
  | write bytes onward => cases asks
  | flush => cases asks

end Stage

inductive Onward {input : Bytes} {room : Nat} (transfer : Transfer input room) :
    (finished : Bool) → Except CodecError Stage → Prop
  | ended : Onward transfer true (.ok .flush)
  | stuck (idle : transfer.IsIdle) (left : input ≠ []) :
      Onward transfer false (.error (.engineContract .decompressorStuck))
  | drained (usedUp : transfer.rest = [])
      (leavesOff : transfer.output.length < room ∨ transfer.IsIdle) :
      Onward transfer false (.ok .read)
  | more (busy : ¬transfer.IsIdle) : Onward transfer false (.ok (.decode transfer.rest))

private theorem onward_onward {input : Bytes} {room : Nat}
    (transfer : Transfer input room)
    (finished : Bool) : Onward transfer finished (onward transfer finished) := by
  cases finished with
  | true => exact .ended
  | false =>
      simp only [onward, Bool.false_eq_true, if_false, List.isEmpty_iff]
      by_cases idle : transfer.IsIdle
      · rw [if_pos idle]
        by_cases usedUp : transfer.rest = []
        · rw [if_pos usedUp]
          exact .drained usedUp (.inr idle)
        · rw [if_neg usedUp]
          refine .stuck idle ?_
          rintro rfl
          exact usedUp List.drop_nil
      · rw [if_neg idle]
        split
        · next drained =>
            refine .drained drained.1 (.inl ?_)
            have roomLeft := drained.2
            rw [Transfer.roomLeft] at roomLeft
            omega
        · exact .more idle

/-- A turn that is not the last, told by the stage and the total it starts from and those
it leads to. -/
inductive Goes (chunk : Nat) (finished : Bool) :
    Stage → UInt64 → Exchange → Stage → UInt64 → Prop
  | ends (ended : finished = true) (total : UInt64) :
      Goes chunk finished .read total (.read []) .flush total
  | brings {content : Bytes} (nonempty : content ≠ []) (total : UInt64) :
      Goes chunk finished .read total (.read content) (.decode content) total
  | readInterrupted (total : UInt64) :
      Goes chunk finished .read total .readInterrupted .read total
  | finishes (ended : finished = true) (pending : Bytes) (consumed : Nat)
      (output : Bytes) (total : UInt64) :
      Goes chunk finished (.decode pending) total (.called pending consumed output)
        (.writing output .flush) (total + byteCount output)
  | drains {pending output : Bytes} {consumed : Nat} (unfinished : finished = false)
      (usedUp : pending.drop consumed = [])
      (leavesOff : Exchange.LeavesOff chunk (.called pending consumed output))
      (total : UInt64) :
      Goes chunk finished (.decode pending) total (.called pending consumed output)
        (.writing output .read) (total + byteCount output)
  | continues {output : Bytes} {consumed : Nat} (unfinished : finished = false)
      (busy : ¬(consumed = 0 ∧ output = [])) (pending : Bytes) (total : UInt64) :
      Goes chunk finished (.decode pending) total (.called pending consumed output)
        (.writing output (.decode (pending.drop consumed))) (total + byteCount output)
  | writes {count : Nat} (positive : 0 < count) (bytes : Bytes) (onward : Stage)
      (total : UInt64) :
      Goes chunk finished (.write bytes onward) total (.wrote bytes count)
        (.writing (bytes.drop count) onward) total
  | writeInterrupted (bytes : Bytes) (onward : Stage) (total : UInt64) :
      Goes chunk finished (.write bytes onward) total .writeInterrupted
        (.writing bytes onward) total

namespace Goes

variable {chunk : Nat} {finished : Bool} {stage next : Stage} {total after : UInt64}
  {exchange : Exchange}

private theorem isEnded (goes : Goes chunk finished stage total exchange next after)
    (ended : stage.IsEnded) : next.IsEnded := by
  cases goes with
  | writes positive bytes onward => exact (Stage.isEnded_writing _ onward).2 ended
  | writeInterrupted bytes onward => exact (Stage.isEnded_writing _ onward).2 ended
  | _ => exact ended.elim

private theorem taken_eq (goes : Goes chunk finished stage total exchange next after)
    (going : ¬next.IsEnded) :
    exchange.taken ++ next.pending = stage.pending ++ exchange.delivered := by
  cases goes with
  | ends => exact absurd trivial going
  | finishes =>
      simp only [Stage.isEnded_writing] at going
      exact absurd trivial going
  | @drains pending output consumed unfinished usedUp =>
      have whole := List.take_append_drop consumed pending
      rw [usedUp] at whole
      simpa [Exchange.taken, Exchange.delivered, Stage.pending] using whole
  | _ => simp [Exchange.taken, Exchange.delivered, Stage.pending]

private theorem taken_isPrefix
    (goes : Goes chunk finished stage total exchange next after) :
    exchange.taken <+: stage.pending := by
  cases goes with
  | finishes ended pending consumed => exact List.take_prefix consumed pending
  | @drains pending output consumed => exact List.take_prefix consumed pending
  | @continues output consumed unfinished busy pending =>
      exact List.take_prefix consumed pending
  | _ => exact List.nil_prefix

private theorem received_eq (goes : Goes chunk finished stage total exchange next after) :
    exchange.received ++ next.unwritten = stage.unwritten ++ exchange.produced := by
  cases goes with
  | writes positive bytes onward total =>
      simp only [Exchange.received, Exchange.produced, Stage.unwritten,
        Stage.unwritten_writing, List.append_nil]
      rw [← List.append_assoc, List.take_append_drop]
  | _ => simp [Exchange.received, Exchange.produced, Stage.unwritten]

private theorem total_eq (goes : Goes chunk finished stage total exchange next after) :
    after = total + byteCount exchange.produced := by
  cases goes <;> simp [Exchange.produced]

theorem party_eq (goes : Goes chunk finished stage total exchange next after) :
    exchange.party = stage.party := by
  cases goes <;> rfl

private theorem not_failed (goes : Goes chunk finished stage total exchange next after) :
    exchange.failure? = none := by
  cases goes with
  | @writes count positive bytes onward total =>
      obtain ⟨less, rfl⟩ := Nat.exists_eq_add_one_of_ne_zero (Nat.ne_of_gt positive)
      rfl
  | _ => rfl

private theorem not_flushed (goes : Goes chunk finished stage total exchange next after) :
    exchange ≠ .flushed := by
  cases goes <;> exact Exchange.noConfusion

private theorem not_stuck {input : Bytes}
    (goes : Goes chunk finished stage total (.called input 0 []) next after) :
    input = [] ∨ next.IsEnded := by
  cases goes with
  | finishes => exact .inr trivial
  | drains unfinished usedUp => exact .inl usedUp
  | continues unfinished busy => exact absurd ⟨rfl, rfl⟩ busy

private theorem leavesOff {past : List Exchange}
    (goes : Goes chunk finished stage total exchange next after)
    (left : stage.IsReading → ∀ call, latestCall? past = some call →
      call.LeavesOff chunk)
    (reading : next.IsReading) (call : Exchange)
    (latest : latestCall? (past ++ [exchange]) = some call) :
    call.LeavesOff chunk := by
  cases goes with
  | ends => exact reading.elim
  | brings => exact reading.elim
  | readInterrupted =>
      rw [latestCall?_concat_of_other Party.noConfusion] at latest
      exact left reading call latest
  | finishes =>
      rw [Stage.isReading_writing] at reading
      exact reading.elim
  | drains unfinished usedUp leavesOff =>
      rw [latestCall?_concat_of_session rfl] at latest
      cases latest
      exact leavesOff
  | continues =>
      rw [Stage.isReading_writing] at reading
      exact reading.elim
  | writes =>
      rw [latestCall?_concat_of_other Party.noConfusion] at latest
      rw [Stage.isReading_writing] at reading
      exact left reading call latest
  | writeInterrupted =>
      rw [latestCall?_concat_of_other Party.noConfusion] at latest
      rw [Stage.isReading_writing] at reading
      exact left reading call latest

variable {before : Bool}

private theorem not_drained (goes : Goes chunk finished stage total exchange next after)
    (stays : exchange.party ≠ .session → finished = before)
    (before_iff : before = true ↔ stage.IsEnded) : exchange ≠ .read [] := by
  rintro rfl
  cases goes with
  | ends ended =>
      rw [stays Party.noConfusion, before_iff] at ended
      exact ended
  | brings nonempty => exact nonempty rfl

private theorem isEnded_iff (goes : Goes chunk finished stage total exchange next after)
    (stays : exchange.party ≠ .session → finished = before)
    (before_iff : before = true ↔ stage.IsEnded) : finished = true ↔ next.IsEnded := by
  cases goes with
  | ends ended => simp [Stage.IsEnded, ended]
  | brings =>
      rw [stays Party.noConfusion]
      exact before_iff
  | readInterrupted =>
      rw [stays Party.noConfusion]
      exact before_iff
  | finishes ended => simp [Stage.IsEnded, ended]
  | drains unfinished => simp [Stage.IsEnded, unfinished]
  | continues unfinished => simp [Stage.IsEnded, unfinished]
  | writes =>
      rw [stays Party.noConfusion, Stage.isEnded_writing]
      exact before_iff
  | writeInterrupted =>
      rw [stays Party.noConfusion, Stage.isEnded_writing]
      exact before_iff

end Goes

/-- A party failed, or the source or the session came to nothing before the end of the
stream. -/
inductive Fails (finished : Bool) : Exchange → CodecError → Prop
  | party {exchange : Exchange} {error : CodecError}
      (failed : exchange.failure? = some error) : Fails finished exchange error
  | endsEarly (unfinished : finished = false) :
      Fails finished (.read []) (.corruptInput .endsEarly)
  | stuck {input : Bytes} (unfinished : finished = false) (left : input ≠ []) :
      Fails finished (.called input 0 []) (.engineContract .decompressorStuck)

private theorem Fails.isSilent {finished : Bool} {exchange : Exchange}
    {error : CodecError}
    (fails : Fails finished exchange error) : exchange.IsSilent := by
  cases fails with
  | party failed => exact Exchange.isSilent_of_failure failed
  | endsEarly => exact ⟨rfl, rfl, rfl, rfl⟩
  | stuck => exact ⟨rfl, rfl, rfl, rfl⟩

inductive Stops (finished : Bool) :
    Stage → UInt64 → Exchange → Except CodecError UInt64 → Prop
  | failed {exchange : Exchange} {error : CodecError} {stage : Stage}
      (fails : Fails finished exchange error) (asked : exchange.party = stage.party)
      (total : UInt64) : Stops finished stage total exchange (.error error)
  | flushed (total : UInt64) : Stops finished .flush total .flushed (.ok total)

private theorem Stops.isSilent {finished : Bool} {stage : Stage} {total : UInt64}
    {exchange : Exchange} {result : Except CodecError UInt64}
    (stops : Stops finished stage total exchange result) : exchange.IsSilent := by
  cases stops with
  | failed fails => exact fails.isSilent
  | flushed => exact Exchange.isSilent_flushed

private theorem Stops.party_eq {finished : Bool} {stage : Stage} {total : UInt64}
    {exchange : Exchange} {result : Except CodecError UInt64}
    (stops : Stops finished stage total exchange result) :
    exchange.party = stage.party := by
  cases stops with
  | failed fails asked => exact asked
  | flushed => rfl

inductive Calls {σ : Type} [Decompressor σ] (chunk : Nat) : σ → Exchange → σ → Prop
  | decompressed {session next : σ} {input : Bytes} {decoded : Decoded input chunk}
      (answer : Decompressor.decompress session input chunk = (.ok decoded, next)) :
      Calls chunk session (.called input decoded.consumed decoded.output) next
  | failed {session next : σ} {input : Bytes} {error : CodecError}
      (answer : Decompressor.decompress session input chunk = (.error error, next)) :
      Calls chunk session (.callFailed error) next

variable {ρ ω σ : Type} [Source ρ] [Sink ω] [Decompressor σ]

theorem session_eq_of_happens {chunk : Nat} {parties next : Parties ρ ω σ}
    {exchange : Exchange} (happens : Happens (Calls chunk) chunk parties exchange next)
    (other : exchange.party ≠ .session) : next.session = parties.session := by
  apply happens.session_eq ?_ other
  intro session exchange next answer
  cases answer <;> rfl

inductive Turned (machine : Decompression ρ ω σ) :
    Exchange × Turn (Decompression ρ ω σ) ρ ω σ → Prop
  | next {exchange : Exchange} {next : Decompression ρ ω σ}
      (happens : Happens (Calls machine.chunk) machine.chunk machine.parties exchange
        next.parties)
      (chunk_eq : next.chunk = machine.chunk)
      (goes : Goes machine.chunk (Decompressor.isFinished next.parties.session)
        machine.stage machine.total exchange next.stage next.total) :
      Turned machine (exchange, .next next)
  | done {exchange : Exchange} {result : Except CodecError UInt64}
      {parties : Parties ρ ω σ}
      (happens : Happens (Calls machine.chunk) machine.chunk machine.parties exchange
        parties)
      (stops : Stops (Decompressor.isFinished parties.session) machine.stage
        machine.total exchange result) :
      Turned machine (exchange, .done result parties)

private theorem turned_read (source : ρ) (sink : ω) (session : σ) (chunk : Nat)
    (total : UInt64) :
    Turned ⟨⟨source, sink, session⟩, chunk, .read, total⟩
      (turn ⟨⟨source, sink, session⟩, chunk, .read, total⟩) := by
  rcases answer : Source.read source chunk with ⟨⟨content, fits⟩ | _ | text, next⟩
  · cases content with
    | nil =>
        simp only [turn, answer]
        cases finished : Decompressor.isFinished session with
        | true => exact .next (.read answer sink session) rfl (.ends finished total)
        | false =>
            exact .done (.read answer sink session)
              (.failed (.endsEarly finished) rfl total)
    | cons byte content =>
        simp only [turn, answer]
        exact .next (.read answer sink session) rfl
          (.brings (List.cons_ne_nil byte content) total)
  · simp only [turn, answer]
    exact .next (.readInterrupted answer sink session) rfl (.readInterrupted total)
  · simp only [turn, answer]
    exact .done (.readFailed answer sink session) (.failed (.party rfl) rfl total)

private theorem turned_decode (source : ρ) (sink : ω) (session : σ) (chunk : Nat)
    (total : UInt64) (pending : Bytes) :
    Turned ⟨⟨source, sink, session⟩, chunk, .decode pending, total⟩
      (turn ⟨⟨source, sink, session⟩, chunk, .decode pending, total⟩) := by
  rcases answer : Decompressor.decompress session pending chunk with
    ⟨error | decoded, next⟩
  · simp only [turn, answer]
    exact .done (.session (.failed answer) source sink) (.failed (.party rfl) rfl total)
  · have happens : Happens (Calls chunk) chunk ⟨source, sink, session⟩
        (.called pending decoded.consumed decoded.output) ⟨source, sink, next⟩ :=
      .session (.decompressed answer) source sink
    have onwards := onward_onward decoded.toTransfer (Decompressor.isFinished next)
    simp only [turn, answer]
    generalize finished : Decompressor.isFinished next = ended at onwards
    generalize onward decoded.toTransfer ended = way at onwards
    cases onwards with
    | ended => exact .next happens rfl (.finishes finished _ _ _ total)
    | stuck idle left =>
        refine .done happens (.failed ?_ rfl total)
        rw [idle.1, idle.2]
        exact .stuck finished left
    | drained usedUp leavesOff =>
        exact .next happens rfl (.drains finished usedUp leavesOff total)
    | more busy => exact .next happens rfl (.continues finished busy pending total)

private theorem turned_write (source : ρ) (sink : ω) (session : σ) (chunk : Nat)
    (total : UInt64) (bytes : Bytes) (onward : Stage) :
    Turned ⟨⟨source, sink, session⟩, chunk, .write bytes onward, total⟩
      (turn ⟨⟨source, sink, session⟩, chunk, .write bytes onward, total⟩) := by
  rcases offers : offer sink bytes with ⟨exchange, left, next⟩
  have asked : exchange.party = (Stage.write bytes onward).party := by
    have sinkAsked := party_of_offer sink bytes
    rw [offers] at sinkAsked
    exact sinkAsked
  obtain ⟨happens, offered⟩ :=
    happens_of_offer offers (Calls chunk) chunk source session
  simp only [turn, offers]
  cases offered with
  | wrote positive => exact .next happens rfl (.writes positive bytes onward total)
  | interrupted => exact .next happens rfl (.writeInterrupted bytes onward total)
  | failed failed => exact .done happens (.failed (.party failed) asked total)

private theorem turned_flush (source : ρ) (sink : ω) (session : σ) (chunk : Nat)
    (total : UInt64) :
    Turned ⟨⟨source, sink, session⟩, chunk, .flush, total⟩
      (turn ⟨⟨source, sink, session⟩, chunk, .flush, total⟩) := by
  rcases answer : Sink.flush sink with ⟨text | ⟨⟩, next⟩
  · simp only [turn, answer]
    exact .done (.flushFailed answer source session) (.failed (.party rfl) rfl total)
  · simp only [turn, answer]
    exact .done (.flushed answer source session) (.flushed total)

theorem turned_turn (machine : Decompression ρ ω σ) :
    Turned machine (turn machine) := by
  rcases machine with ⟨⟨source, sink, session⟩, chunk, stage, total⟩
  cases stage with
  | read => exact turned_read source sink session chunk total
  | decode pending => exact turned_decode source sink session chunk total pending
  | write bytes onward => exact turned_write source sink session chunk total bytes onward
  | flush => exact turned_flush source sink session chunk total

private theorem Turned.party_eq {machine : Decompression ρ ω σ}
    {outcome : Exchange × Turn (Decompression ρ ω σ) ρ ω σ}
    (turned : Turned machine outcome) : outcome.1.party = machine.stage.party := by
  cases turned with
  | next happens chunk_eq goes => exact goes.party_eq
  | done happens stops => exact stops.party_eq

theorem party_turn (machine : Decompression ρ ω σ) :
    (turn machine).1.party = machine.stage.party :=
  (turned_turn machine).party_eq

structure Accounts (first : Parties ρ ω σ) (chunk : Nat) (past : List Exchange)
    (machine : Decompression ρ ω σ) : Prop where
  chunk_eq : machine.chunk = chunk
  happened : Happened (Calls chunk) chunk first past machine.parties
  isFinished_iff :
    Decompressor.isFinished machine.parties.session = true ↔ machine.stage.IsEnded
  taken_isPrefix : past.flatMap Exchange.taken <+: past.flatMap Exchange.delivered
  taken_eq : ¬machine.stage.IsEnded →
    past.flatMap Exchange.taken ++ machine.stage.pending =
      past.flatMap Exchange.delivered
  leavesOff : machine.stage.IsReading → ∀ call, latestCall? past = some call →
    call.LeavesOff chunk
  received_eq : received past ++ machine.stage.unwritten =
    past.flatMap Exchange.produced
  total_eq : machine.total = byteCount (past.flatMap Exchange.produced)
  not_failed : ∀ exchange ∈ past, exchange.failure? = none
  not_stuck : ∀ input, .called input 0 [] ∈ past → input = [] ∨ machine.stage.IsEnded
  not_drained : .read [] ∉ past
  not_flushed : .flushed ∉ past

/-- It succeeds with the flush, behind the end of the stream, and fails with the first
failure. -/
inductive Closes (finished : Bool) (transcript : List Exchange) :
    Except CodecError UInt64 → Prop
  | failed {before : List Exchange} {exchange : Exchange} {error : CodecError}
      (transcript_eq : transcript = before ++ [exchange])
      (fails : Fails finished exchange error)
      (not_fails : ∀ earlier ∈ before, ∀ error, ¬Fails finished earlier error)
      (not_flushed : .flushed ∉ before) : Closes finished transcript (.error error)
  | flushed {before : List Exchange} {total : UInt64} (ended : finished = true)
      (transcript_eq : transcript = before ++ [.flushed])
      (not_fails : ∀ earlier ∈ before, ∀ error, ¬Fails finished earlier error)
      (not_drained : .read [] ∉ before) (not_flushed : .flushed ∉ before)
      (received_eq : received before = before.flatMap Exchange.produced)
      (total_eq : total = byteCount (received before)) :
      Closes finished transcript (.ok total)

/-- Between any parties, what is decompressed is the beginning of what the source brings,
up to the end of the stream, and what is written is what the session gave. -/
structure Faithful (source : ρ) (sink : ω) (session : σ) (chunk : Nat)
    (report : Report ρ ω σ) : Prop where
  happened : Happened (Calls chunk) chunk ⟨source, sink, session⟩ report.transcript
    report.parties
  taken_isPrefix : report.transcript.flatMap Exchange.taken <+:
    report.transcript.flatMap Exchange.delivered
  /-- The source is asked for more only when all of what it brought is taken and the
  session holds nothing back for want of room. -/
  asksSource : ∀ before exchange after,
    report.transcript = before ++ exchange :: after → exchange.party = .source →
      before.flatMap Exchange.taken = before.flatMap Exchange.delivered ∧
      ∀ call, latestCall? before = some call → call.LeavesOff chunk
  asksSession : ∀ before input consumed output after,
    report.transcript = before ++ .called input consumed output :: after →
      before.flatMap Exchange.taken ++ input = before.flatMap Exchange.delivered
  /-- Source and session are asked only as long as the session is not finished. -/
  asksOthers : ∀ before exchange after,
    report.transcript = before ++ exchange :: after → exchange.party ≠ .sink →
      ∃ machine, Leads turn (start source sink session chunk) before machine ∧
        Decompressor.isFinished machine.parties.session = false
  asksSink : ∀ before after machine, report.transcript = before ++ after →
    Leads turn (start source sink session chunk) before machine →
      Decompressor.isFinished machine.parties.session = true →
        ∀ exchange ∈ after, exchange.party = .sink
  received_isPrefix : received report.transcript <+:
    report.transcript.flatMap Exchange.produced
  closes : Closes (Decompressor.isFinished report.parties.session) report.transcript
    report.result

namespace Accounts

variable {first parties : Parties ρ ω σ} {chunk : Nat} {past : List Exchange}
  {machine next : Decompression ρ ω σ} {exchange : Exchange}
  {result : Except CodecError UInt64}

theorem start (source : ρ) (sink : ω) {session : σ} (chunk : Nat)
    (unfinished : Decompressor.isFinished session = false) :
    Accounts ⟨source, sink, session⟩ chunk []
      (Decompression.start source sink session chunk) where
  chunk_eq := rfl
  happened := .nothing _
  isFinished_iff := by simp [Decompression.start, Stage.IsEnded, unfinished]
  taken_isPrefix := List.prefix_rfl
  taken_eq := fun _ => rfl
  leavesOff := by simp [latestCall?]
  received_eq := rfl
  total_eq := rfl
  not_failed := by simp
  not_stuck := by simp
  not_drained := by simp
  not_flushed := by simp

section

variable (accounts : Accounts first chunk past machine) {finished : Bool} {stage : Stage}
  {total : UInt64}
  (goes : Goes chunk finished machine.stage machine.total exchange stage total)

include accounts goes

private theorem taken_isPrefix_concat :
    (past ++ [exchange]).flatMap Exchange.taken <+:
      (past ++ [exchange]).flatMap Exchange.delivered := by
  by_cases ended : machine.stage.IsEnded
  · have asked : exchange.party = .sink :=
      goes.party_eq.trans (Stage.party_of_isEnded ended)
    rw [Exchange.flatMap_concat_of_nil (Exchange.taken_of_party (by simp [asked])),
      Exchange.flatMap_concat_of_nil (Exchange.delivered_of_party (by simp [asked]))]
    exact accounts.taken_isPrefix
  · rw [Exchange.flatMap_concat, Exchange.flatMap_concat, ← accounts.taken_eq ended,
      List.append_assoc, List.prefix_append_right_inj]
    exact goes.taken_isPrefix.trans (List.prefix_append _ _)

private theorem taken_concat (going : ¬stage.IsEnded) :
    (past ++ [exchange]).flatMap Exchange.taken ++ stage.pending =
      (past ++ [exchange]).flatMap Exchange.delivered := by
  have wasGoing : ¬machine.stage.IsEnded := mt goes.isEnded going
  rw [Exchange.flatMap_concat, Exchange.flatMap_concat, List.append_assoc,
    goes.taken_eq going, ← List.append_assoc, accounts.taken_eq wasGoing]

private theorem received_concat :
    received (past ++ [exchange]) ++ stage.unwritten =
      (past ++ [exchange]).flatMap Exchange.produced := by
  rw [Stream.received_concat, Exchange.flatMap_concat, List.append_assoc,
    goes.received_eq, ← List.append_assoc, accounts.received_eq]

private theorem total_concat :
    total = byteCount ((past ++ [exchange]).flatMap Exchange.produced) := by
  rw [Exchange.flatMap_concat, byteCount_append, ← accounts.total_eq, goes.total_eq]

private theorem not_failed_concat :
    ∀ earlier ∈ past ++ [exchange], earlier.failure? = none := by
  rw [List.forall_mem_append, List.forall_mem_singleton]
  exact ⟨accounts.not_failed, goes.not_failed⟩

private theorem not_stuck_concat (input : Bytes)
    (member : .called input 0 [] ∈ past ++ [exchange]) : input = [] ∨ stage.IsEnded := by
  rcases List.mem_append.1 member with member | member
  · exact (accounts.not_stuck input member).imp_right goes.isEnded
  · obtain rfl := List.mem_singleton.1 member
    exact goes.not_stuck

private theorem not_flushed_concat : .flushed ∉ past ++ [exchange] := by
  simp only [List.mem_append, List.mem_singleton, not_or]
  exact ⟨accounts.not_flushed, Ne.symm goes.not_flushed⟩

private theorem not_drained_concat
    (stays : exchange.party ≠ .session →
      finished = Decompressor.isFinished machine.parties.session) :
    .read [] ∉ past ++ [exchange] := by
  simp only [List.mem_append, List.mem_singleton, not_or]
  exact ⟨accounts.not_drained, Ne.symm (goes.not_drained stays accounts.isFinished_iff)⟩

end

theorem turn (accounts : Accounts first chunk past machine)
    (turned : Decompression.turn machine = (exchange, .next next)) :
    Accounts first chunk (past ++ [exchange]) next := by
  have turns := turned_turn machine
  rw [turned] at turns
  cases turns with
  | next happens same goes =>
      obtain rfl := accounts.chunk_eq
      have stays (other : exchange.party ≠ .session) :
          Decompressor.isFinished next.parties.session =
            Decompressor.isFinished machine.parties.session := by
        rw [session_eq_of_happens happens other]
      exact
        { chunk_eq := same
          happened := accounts.happened.concat happens
          isFinished_iff := goes.isEnded_iff stays accounts.isFinished_iff
          taken_isPrefix := accounts.taken_isPrefix_concat goes
          taken_eq := accounts.taken_concat goes
          leavesOff := goes.leavesOff accounts.leavesOff
          received_eq := accounts.received_concat goes
          total_eq := accounts.total_concat goes
          not_failed := accounts.not_failed_concat goes
          not_stuck := accounts.not_stuck_concat goes
          not_drained := accounts.not_drained_concat goes stays
          not_flushed := accounts.not_flushed_concat goes }

theorem taken_all (accounts : Accounts first chunk past machine)
    (reading : machine.stage = .read) :
    past.flatMap Exchange.taken = past.flatMap Exchange.delivered := by
  have going : ¬machine.stage.IsEnded := by
    rw [reading]
    exact id
  rw [← accounts.taken_eq going, reading]
  exact (List.append_nil _).symm

theorem received_all (accounts : Accounts first chunk past machine)
    (nothing : machine.stage.unwritten = []) :
    received past = past.flatMap Exchange.produced := by
  rw [← accounts.received_eq, nothing, List.append_nil]

theorem isFinished_eq_false (accounts : Accounts first chunk past machine)
    (going : ¬machine.stage.IsEnded) :
    Decompressor.isFinished machine.parties.session = false :=
  Bool.eq_false_iff.2 (mt accounts.isFinished_iff.1 going)

theorem not_fails (accounts : Accounts first chunk past machine) {finished : Bool}
    (stays : machine.stage.IsEnded → finished = true) :
    ∀ earlier ∈ past, ∀ error, ¬Fails finished earlier error := by
  intro earlier member error fails
  cases fails with
  | party failed =>
      rw [accounts.not_failed earlier member] at failed
      cases failed
  | endsEarly => exact accounts.not_drained member
  | stuck unfinished left =>
      rcases accounts.not_stuck _ member with nothing | ended
      · exact left nothing
      · rw [stays ended] at unfinished
        cases unfinished

theorem closes (accounts : Accounts first chunk past machine)
    (happens : Happens (Calls machine.chunk) machine.chunk machine.parties exchange
      parties)
    (stops : Stops (Decompressor.isFinished parties.session) machine.stage
      machine.total exchange result) :
    Closes (Decompressor.isFinished parties.session) (past ++ [exchange]) result := by
  have stays : machine.stage.IsEnded →
      Decompressor.isFinished parties.session = true := by
    intro ended
    have asked : exchange.party = .sink :=
      stops.party_eq.trans (Stage.party_of_isEnded ended)
    rw [session_eq_of_happens happens (by simp [asked])]
    exact accounts.isFinished_iff.2 ended
  rcases machine with ⟨before, chunk, stage, total⟩
  cases stops with
  | failed fails => exact .failed rfl fails (accounts.not_fails stays) accounts.not_flushed
  | flushed =>
      have received_eq := accounts.received_all rfl
      refine .flushed (stays trivial) rfl (accounts.not_fails stays)
        accounts.not_drained accounts.not_flushed received_eq ?_
      rw [received_eq]
      exact accounts.total_eq

end Accounts

theorem accounts_of_leads {source : ρ} {sink : ω} {session : σ} {chunk : Nat}
    {past : List Exchange} {machine : Decompression ρ ω σ}
    (unfinished : Decompressor.isFinished session = false)
    (leads : Leads turn (start source sink session chunk) past machine) :
    Accounts ⟨source, sink, session⟩ chunk past machine :=
  leads.holds Accounts.turn (Accounts.start source sink chunk unfinished)

theorem isEnded_of_leads {first last : Decompression ρ ω σ} {later : List Exchange}
    (leads : Leads turn first later last) (ended : first.stage.IsEnded) :
    last.stage.IsEnded := by
  induction leads with
  | refl machine => exact ended
  | @step machine next last exchange exchanges turned leads induction =>
      have turns := turned_turn machine
      rw [turned] at turns
      cases turns with
      | next happens chunk_eq goes => exact induction (goes.isEnded ended)

theorem pending_of_called {machine : Decompression ρ ω σ} {input output : Bytes}
    {consumed : Nat} (called : (turn machine).1 = .called input consumed output) :
    machine.stage = .decode input := by
  have asks := party_turn machine
  rw [called] at asks
  rcases machine with ⟨⟨source, sink, session⟩, chunk, stage, total⟩
  cases stage with
  | decode pending =>
      rcases answer : Decompressor.decompress session pending chunk with
        ⟨error | decoded, next⟩
      · simp only [turn, answer] at called
        cases called
      · simp only [turn, answer] at called
        cases called
        rfl
  | read => cases asks
  | write bytes onward => cases asks
  | flush => cases asks

section

variable {source : ρ} {sink : ω} {session : σ} {chunk : Nat} {past : List Exchange}
  {machine : Decompression ρ ω σ}
  (unfinished : Decompressor.isFinished session = false)
  (leads : Leads turn (start source sink session chunk) past machine)

include unfinished leads

private theorem source_asked (asks : (turn machine).1.party = .source) :
    past.flatMap Exchange.taken = past.flatMap Exchange.delivered ∧
      ∀ call, latestCall? past = some call → call.LeavesOff chunk := by
  have accounts := accounts_of_leads unfinished leads
  rw [party_turn] at asks
  have reading := Stage.eq_read_of_party asks
  refine ⟨accounts.taken_all reading, accounts.leavesOff ?_⟩
  rw [reading]
  trivial

private theorem session_asked {input output : Bytes} {consumed : Nat}
    (called : (turn machine).1 = .called input consumed output) :
    past.flatMap Exchange.taken ++ input = past.flatMap Exchange.delivered := by
  have taken_eq := (accounts_of_leads unfinished leads).taken_eq
  rw [pending_of_called called] at taken_eq
  exact taken_eq id

private theorem others_asked (other : (turn machine).1.party ≠ .sink) :
    Decompressor.isFinished machine.parties.session = false := by
  apply (accounts_of_leads unfinished leads).isFinished_eq_false
  intro wasEnded
  rw [party_turn] at other
  exact other (Stage.party_of_isEnded wasEnded)

private theorem sink_asked
    (finished : Decompressor.isFinished machine.parties.session = true)
    {between : List Exchange} {reached : Decompression ρ ω σ}
    (leadsOn : Leads turn machine between reached) :
    (turn reached).1.party = .sink := by
  have wasEnded := (accounts_of_leads unfinished leads).isFinished_iff.1 finished
  rw [party_turn]
  exact Stage.party_of_isEnded (isEnded_of_leads leadsOn wasEnded)

end

theorem faithful_of_repeatTurns {source : ρ} {sink : ω} {session : σ}
    {chunk turns : Nat} {report : Report ρ ω σ}
    (unfinished : Decompressor.isFinished session = false)
    (ended : repeatTurns turn (start source sink session chunk) [] turns =
      some report) :
    Faithful source sink session chunk report := by
  obtain ⟨past, last, exchange, leads, done, transcript_eq⟩ :=
    leads_of_repeatTurns ended
  rw [List.reverse_nil, List.nil_append] at transcript_eq
  have accounts := accounts_of_leads unfinished leads
  have turned := turned_turn last
  rw [done] at turned
  obtain _ | ⟨happens, stops⟩ := turned
  have silent := stops.isSilent
  have asked {before after : List Exchange} {asking : Exchange}
      (split : report.transcript = before ++ asking :: after) :
      ∃ machine, Leads turn (start source sink session chunk) before machine ∧
        (turn machine).1 = asking :=
    leads_of_split leads (congrArg Prod.fst done) (transcript_eq.symm.trans split)
  exact
    { happened := by
        rw [accounts.chunk_eq] at happens
        rw [transcript_eq]
        exact accounts.happened.concat happens
      taken_isPrefix := by
        rw [transcript_eq, Exchange.flatMap_concat_of_nil silent.taken_eq,
          Exchange.flatMap_concat_of_nil silent.delivered_eq]
        exact accounts.taken_isPrefix
      asksSource := by
        intro before exchange after split asks
        obtain ⟨machine, leads, rfl⟩ := asked split
        exact source_asked unfinished leads asks
      asksSession := by
        intro before input consumed output after split
        obtain ⟨machine, leads, called⟩ := asked split
        exact session_asked unfinished leads called
      asksOthers := by
        intro before exchange after split other
        obtain ⟨machine, leads, rfl⟩ := asked split
        exact ⟨machine, leads, others_asked unfinished leads other⟩
      asksSink := by
        intro before after machine split leads finished exchange member
        obtain ⟨between, behind, rfl⟩ := List.append_of_mem member
        rw [← List.append_assoc] at split
        obtain ⟨reached, leadsOn, rfl⟩ := asked split
        exact sink_asked unfinished leads finished (leads.rest leadsOn)
      received_isPrefix := by
        rw [transcript_eq, received, Exchange.flatMap_concat_of_nil silent.received_eq,
          Exchange.flatMap_concat_of_nil silent.produced_eq]
        exact ⟨_, accounts.received_eq⟩
      closes := transcript_eq ▸ accounts.closes happens stops }

end Decompression

/-- Whatever the source, the sink and the session do, a decompression that comes to an end
was faithful to them, and did not go beyond the end of the stream. -/
theorem decompress_faithful {ρ ω σ : Type} [Source ρ] [Sink ω] [Decompressor σ]
    {source : ρ} {sink : ω} {session : σ} {chunk turns : Nat} {report : Report ρ ω σ}
    (unfinished : Decompressor.isFinished session = false)
    (ended : decompress source sink session chunk turns = some report) (roomy : 0 < chunk)
    (fits : chunk ≤ largestChunk) :
    Decompression.Faithful source sink session chunk report := by
  rw [decompress, checkChunk_ok roomy fits] at ended
  exact Decompression.faithful_of_repeatTurns unfinished ended

theorem decompress_faithful_of_trailing_bytes :
    let source := ScriptedSource.new [.upTo 2, .interrupted] [1, 2, 3, 4, 5]
    let session : Scripted.DecompressorScript :=
      ⟨[.ok ⟨.upTo 1, .upTo 2, false, false⟩, .ok ⟨.upTo 1, .upTo 0, false, false⟩,
        .ok ⟨.upTo 1, .upTo 1, true, false⟩], false, .empty⟩
    ∃ report,
      Decompressor.isFinished session = false ∧
      decompress source LimitedSink.hesitant session 2 15 = some report ∧
      0 < 2 ∧ 2 ≤ largestChunk ∧
      report.result = .ok 3 ∧ report.parties.sink.content = [0, 1, 2] ∧
      report.parties.source.rest = [5] ∧
      Decompression.Faithful source LimitedSink.hesitant session 2 report := by
  intro source session
  have results : (decompress source LimitedSink.hesitant session 2 15).map
      (fun report => report.result) = some (.ok 3) := by
    simp only [source, session]
    rfl
  have rests : (decompress source LimitedSink.hesitant session 2 15).map
      (fun report => (report.parties.sink.content, report.parties.source.rest)) =
        some ([0, 1, 2], [5]) := by decide
  obtain ⟨report, ended, result_eq⟩ := Option.map_eq_some_iff.1 results
  rw [ended, Option.map_some, Option.some.injEq, Prod.mk.injEq] at rests
  have fits : 2 ≤ largestChunk := by decide
  exact ⟨report, rfl, ended, Nat.two_pos, fits, result_eq, rests.1, rests.2,
    decompress_faithful rfl ended Nat.two_pos fits⟩

end StreamCodec.Stream
