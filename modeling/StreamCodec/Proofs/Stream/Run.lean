import StreamCodec.Stream.Transcript

namespace StreamCodec

/-! What a transfer needs of its source and its sink to come to its end. -/

/-- Reads into a room bring these bytes and then the end. They may be as short as
they like, and finitely many of them are interrupted. -/
inductive Source.Delivers [Source ρ] (room : Nat) : ρ → Bytes → Prop
  | ends {source next : ρ} {fits : ([] : Bytes).length ≤ room}
      (read : Source.read source room = (.bytes [] fits, next)) :
      Delivers room source []
  | interrupted {source next : ρ} {bytes : Bytes}
      (read : Source.read source room = (.interrupted, next))
      (later : Delivers room next bytes) : Delivers room source bytes
  | brings {source next : ρ} {content bytes : Bytes}
      {fits : content.length ≤ room}
      (read : Source.read source room = (.bytes content fits, next))
      (nonempty : content ≠ []) (later : Delivers room next bytes) :
      Delivers room source (content ++ bytes)

/-- Offered what is left again and again, a sink takes all of the bytes. It may take
them in pieces, and finitely many writes are interrupted. -/
inductive Sink.Takes [Sink ω] : ω → Bytes → ω → Prop
  | nothing (sink : ω) : Takes sink [] sink
  | interrupted {sink next last : ω} {bytes : Bytes} (nonempty : bytes ≠ [])
      (write : Sink.write sink bytes = (.interrupted, next))
      (later : Takes next bytes last) : Takes sink bytes last
  | accepted {sink next last : ω} {bytes : Bytes} {count : Nat}
      {fits : count ≤ bytes.length} (positive : 0 < count)
      (write : Sink.write sink bytes = (.accepted count fits, next))
      (later : Takes next (bytes.drop count) last) : Takes sink bytes last

/-- Whatever a sink in such a state is offered, it takes all of it and is in such a
state again. A flush does not fail. -/
structure Sink.Willing [Sink ω] (willing : ω → Prop) : Prop where
  takes {sink : ω} (ready : willing sink) (bytes : Bytes) :
    ∃ next, Sink.Takes sink bytes next ∧ willing next
  flushes {sink : ω} (ready : willing sink) :
    ∃ next, Sink.flush sink = (.ok (), next)

/-- A sink that will not fail, whatever it is offered. -/
def Sink.Patient [Sink ω] (sink : ω) : Prop :=
  ∃ willing : ω → Prop, Sink.Willing willing ∧ willing sink

namespace Stream

variable {μ ρ ω σ : Type}

/-- The transfer ends with this report, given enough turns. -/
def Reports (transfer : (turns : Nat) → Option (Report ρ ω σ))
    (report : Report ρ ω σ) : Prop :=
  ∃ enough, ∀ extra, transfer (enough + extra) = some report

def Exchange.received : Exchange → Bytes
  | .wrote offered count => offered.take count
  | _ => []

def received (exchanges : List Exchange) : Bytes :=
  exchanges.flatMap Exchange.received

@[simp] theorem received_nil : received [] = [] := rfl

@[simp] theorem received_cons (exchange : Exchange) (exchanges : List Exchange) :
    received (exchange :: exchanges) = exchange.received ++ received exchanges :=
  List.flatMap_cons

@[simp] theorem received_append (before after : List Exchange) :
    received (before ++ after) = received before ++ received after :=
  List.flatMap_append

inductive Leads (turn : μ → Exchange × Turn μ ρ ω σ) :
    μ → List Exchange → μ → Prop
  | refl (machine : μ) : Leads turn machine [] machine
  | step {machine next last : μ} {exchange : Exchange}
      {exchanges : List Exchange}
      (turned : turn machine = (exchange, .next next))
      (leads : Leads turn next exchanges last) :
      Leads turn machine (exchange :: exchanges) last

inductive Runs (turn : μ → Exchange × Turn μ ρ ω σ) :
    μ → List Exchange → Except CodecError UInt64 → Parties ρ ω σ → Prop
  | done {machine : μ} {exchange : Exchange} {result : Except CodecError UInt64}
      {parties : Parties ρ ω σ}
      (turned : turn machine = (exchange, .done result parties)) :
      Runs turn machine [exchange] result parties
  | step {machine next : μ} {exchange : Exchange} {exchanges : List Exchange}
      {result : Except CodecError UInt64} {parties : Parties ρ ω σ}
      (turned : turn machine = (exchange, .next next))
      (runs : Runs turn next exchanges result parties) :
      Runs turn machine (exchange :: exchanges) result parties

section

variable {turn : μ → Exchange × Turn μ ρ ω σ} {first middle last : μ}
  {before after exchanges : List Exchange} {result : Except CodecError UInt64}
  {parties : Parties ρ ω σ}

theorem Leads.runs (leads : Leads turn first before middle)
    (onward : Runs turn middle after result parties) :
    Runs turn first (before ++ after) result parties := by
  induction leads with
  | refl => exact onward
  | step turned leads induction => exact .step turned (induction onward)

private theorem Runs.repeatTurns_eq (runs : Runs turn first exchanges result parties)
    (transcript : List Exchange) :
    ∃ enough, repeatTurns turn first transcript enough =
      some ⟨result, parties, transcript.reverse ++ exchanges⟩ := by
  induction runs generalizing transcript with
  | done turned =>
      refine ⟨1, ?_⟩
      simp only [repeatTurns, turned, List.reverse_cons]
  | @step machine next exchange exchanges result parties turned runs induction =>
      obtain ⟨enough, repeated⟩ := induction (exchange :: transcript)
      refine ⟨enough + 1, ?_⟩
      simp only [repeatTurns, turned, repeated, List.reverse_cons,
        List.append_assoc, List.singleton_append]

theorem Runs.reports (runs : Runs turn first exchanges result parties) :
    Reports (repeatTurns turn first []) ⟨result, parties, exchanges⟩ := by
  obtain ⟨enough, repeated⟩ := runs.repeatTurns_eq []
  refine ⟨enough, fun extra => ?_⟩
  exact repeatTurns_add turn first [] enough extra _ repeated

theorem Leads.holds {Holds : List Exchange → μ → Prop}
    (keeps : ∀ {past : List Exchange} {machine next : μ} {exchange : Exchange},
      Holds past machine → turn machine = (exchange, .next next) →
      Holds (past ++ [exchange]) next)
    (leads : Leads turn first exchanges last) {past : List Exchange}
    (holds : Holds past first) : Holds (past ++ exchanges) last := by
  induction leads generalizing past with
  | refl machine =>
      rw [List.append_nil]
      exact holds
  | step turned leads induction =>
      rw [List.append_cons]
      exact induction (keeps holds turned)

/-- There is one run only: what leads somewhere is the beginning of what leads to the last
turn. -/
theorem Leads.isPrefix_of_done {exchange : Exchange}
    (leads : Leads turn first before middle) (onward : Leads turn first exchanges last)
    (done : turn last = (exchange, .done result parties)) : before <+: exchanges := by
  induction leads generalizing exchanges with
  | refl machine => exact List.nil_prefix
  | step turned leads induction =>
      cases onward with
      | refl => cases turned.symm.trans done
      | step otherTurned onward =>
          cases turned.symm.trans otherTurned
          exact List.cons_prefix_cons.2 ⟨rfl, induction onward⟩

theorem Leads.rest (leads : Leads turn first before middle)
    (onward : Leads turn first (before ++ after) last) :
    Leads turn middle after last := by
  induction leads with
  | refl machine => exact onward
  | step turned leads induction =>
      rw [List.cons_append] at onward
      cases onward with
      | step otherTurned onward =>
          cases turned.symm.trans otherTurned
          exact induction onward

theorem leads_of_split {exchange final : Exchange}
    (leads : Leads turn first exchanges last) (done : (turn last).1 = final)
    (split : exchanges ++ [final] = before ++ exchange :: after) :
    ∃ machine, Leads turn first before machine ∧ (turn machine).1 = exchange := by
  induction leads generalizing before with
  | refl machine =>
      cases before with
      | nil =>
          cases split
          exact ⟨machine, .refl machine, done⟩
      | cons earlier before =>
          have lengthEq := congrArg List.length split
          simp at lengthEq
  | @step machine next last other exchanges turned leads induction =>
      cases before with
      | nil =>
          rw [List.cons_append, List.nil_append, List.cons.injEq] at split
          refine ⟨machine, .refl machine, ?_⟩
          rw [turned]
          exact split.1
      | cons earlier before =>
          rw [List.cons_append, List.cons_append, List.cons.injEq] at split
          obtain ⟨rfl, split⟩ := split
          obtain ⟨reached, leads, turnedEq⟩ := induction done split
          exact ⟨reached, .step turned leads, turnedEq⟩

theorem leads_of_repeatTurns {transcript : List Exchange} {turns : Nat}
    {report : Report ρ ω σ}
    (ended : repeatTurns turn first transcript turns = some report) :
    ∃ exchanges last exchange, Leads turn first exchanges last ∧
      turn last = (exchange, .done report.result report.parties) ∧
      report.transcript = transcript.reverse ++ (exchanges ++ [exchange]) := by
  induction turns generalizing first transcript with
  | zero => cases ended
  | succ turns induction =>
      rw [repeatTurns] at ended
      rcases turned : turn first with ⟨exchange, next | ⟨result, parties⟩⟩
      · rw [turned] at ended
        obtain ⟨exchanges, last, final, leads, done, transcriptEq⟩ := induction ended
        refine ⟨exchange :: exchanges, last, final, .step turned leads, done, ?_⟩
        rw [transcriptEq, List.reverse_cons, List.append_assoc]
        rfl
      · rw [turned] at ended
        cases ended
        exact ⟨[], first, exchange, .refl first, turned, List.reverse_cons⟩

theorem leads_of_takes [Sink ω] {sink emptied : ω} {bytes : Bytes}
    (writing : Bytes → ω → μ)
    (offers : ∀ {bytes rest : Bytes} {sink next : ω} {exchange : Exchange},
      bytes ≠ [] → offer sink bytes = (exchange, .ok rest, next) →
      turn (writing bytes sink) = (exchange, .next (writing rest next)))
    (takes : Sink.Takes sink bytes emptied) :
    ∃ exchanges,
      Leads turn (writing bytes sink) exchanges (writing [] emptied) ∧
        received exchanges = bytes := by
  induction takes with
  | nothing sink => exact ⟨[], .refl _, rfl⟩
  | @interrupted sink next emptied bytes nonempty write later induction =>
      obtain ⟨exchanges, leads, receivedEq⟩ := induction
      have offered : offer sink bytes = (.writeInterrupted, .ok bytes, next) := by
        simp only [offer, write]
      exact ⟨_, .step (offers nonempty offered) leads, receivedEq⟩
  | @accepted sink next emptied bytes count fits positive write later induction =>
      obtain ⟨exchanges, leads, receivedEq⟩ := induction
      obtain ⟨less, rfl⟩ : ∃ less, count = less + 1 := ⟨count - 1, by omega⟩
      have offered : offer sink bytes =
          (.wrote bytes (less + 1), .ok (bytes.drop (less + 1)), next) := by
        simp only [offer, write]
      have nonempty : bytes ≠ [] := by
        rintro rfl
        exact absurd fits (Nat.not_succ_le_zero less)
      refine ⟨_, .step (offers nonempty offered) leads, ?_⟩
      rw [received_cons, receivedEq, Exchange.received,
        List.take_append_drop]

end

theorem checkChunk_ok {chunk : Nat} (roomy : 0 < chunk)
    (fits : chunk ≤ largestChunk) : checkChunk chunk = .ok () := by
  unfold checkChunk
  rw [if_neg]
  omega

end Stream

/-! Scripted sources and limited sinks are such parties. -/

def Reading.IsHarmless : Reading → Prop
  | .upTo count => 0 < count
  | .interrupted => True
  | .failed _ => False

namespace ScriptedSource

private theorem delivers_give (source asked : ScriptedSource) (count : Nat) {room : Nat}
    (roomy : 0 < min count room)
    (read : Source.read source room = asked.give count room)
    (later : asked.rest ≠ [] →
      Source.Delivers room (asked.give count room).2
        (asked.rest.drop (min count room))) :
    Source.Delivers room source asked.rest := by
  rcases Decidable.em (asked.rest = []) with nothing | nonempty
  · rw [nothing]
    have given : (Source.read source room).1 = .bytes [] (Nat.zero_le room) := by
      simp only [read, give, nothing, List.take_nil]
    exact .ends (Prod.ext given rfl)
  · have content : asked.rest.take (min count room) ≠ [] := by
      simp only [ne_eq, List.take_eq_nil_iff, nonempty, or_false]
      omega
    have delivers := Source.Delivers.brings read content (later nonempty)
    rwa [List.take_append_drop] at delivers

theorem delivers_new (script : List Reading) (content : Bytes) {room : Nat}
    (harmless : ∀ reading ∈ script, reading.IsHarmless) (roomy : 0 < room) :
    Source.Delivers room (new script content) content := by
  suffices delivers : ∀ reads,
      Source.Delivers room (ScriptedSource.mk script content reads) content from
    delivers 0
  induction script generalizing content with
  | nil =>
      induction lengthEq : content.length using Nat.strongRecOn
        generalizing content with
      | ind length induction =>
          intro reads
          refine delivers_give _ ⟨[], content, reads + 1⟩ room (by omega) rfl
            fun nonempty => ?_
          have positive : 0 < content.length := List.length_pos_iff.2 nonempty
          exact induction (content.drop (min room room)).length
            (by simp only [List.length_drop]; omega) _ rfl _
  | cons reading script induction =>
      intro reads
      have others : ∀ reading ∈ script, reading.IsHarmless :=
        fun reading member => harmless reading (List.mem_cons_of_mem _ member)
      have this := harmless reading List.mem_cons_self
      cases reading with
      | upTo count =>
          simp only [Reading.IsHarmless] at this
          exact delivers_give _ ⟨script, content, reads + 1⟩ count (by omega) rfl
            fun _ => induction _ others _
      | interrupted => exact .interrupted rfl (induction content others _)
      | failed => exact this.elim

end ScriptedSource

namespace LimitedSink

/-- Every write takes a little, if it is not interrupted, and no two writes in a row
are. -/
structure IsPatient (limits : SinkLimits) : Prop where
  interruptEvery : ∀ every, limits.interruptEvery = some every → 2 ≤ every
  perWrite : ∀ most, limits.perWrite = some most → 0 < most
  inTotal : limits.inTotal = none
  flushFailure : limits.flushFailure = none

private theorem write_of_interrupts {sink : LimitedSink} {bytes : Bytes}
    (interrupts : LimitedSink.interrupts { sink with writes := sink.writes + 1 }) :
    Sink.write sink bytes =
      (.interrupted, { sink with writes := sink.writes + 1 }) := by
  change write sink bytes = _
  simp only [write, interrupts, if_true]

private theorem write_of_not_interrupts {sink : LimitedSink} {bytes : Bytes}
    (patient : IsPatient sink.limits) (nonempty : bytes ≠ [])
    (quiet : ¬LimitedSink.interrupts { sink with writes := sink.writes + 1 }) :
    ∃ (count : Nat) (fits : count ≤ bytes.length) (next : LimitedSink),
      0 < count ∧ Sink.write sink bytes = (.accepted count fits, next) ∧
        next.limits = sink.limits := by
  have positive := List.length_pos_iff.2 nonempty
  let asked : LimitedSink := { sink with writes := sink.writes + 1 }
  have written : Sink.write sink bytes = asked.accept bytes := by
    change write sink bytes = _
    have unlimited : (none = some sink.size) = False := by simp
    simp only [write, if_neg quiet, patient.inTotal, unlimited, if_false]
    cases sink.limits.refusal <;> rfl
  refine ⟨(asked.share bytes).length, asked.length_share_le bytes, _, ?_,
    written, rfl⟩
  simp only [asked, share, roomLeft, patient.inTotal, Option.map_none]
  rcases perWriteEq : sink.limits.perWrite with _ | most
  · exact positive
  · have most_pos := patient.perWrite most perWriteEq
    simp only [List.length_take]
    omega

private theorem not_interrupts_again {sink : LimitedSink}
    (patient : IsPatient sink.limits)
    (interrupts : LimitedSink.interrupts
      { sink with writes := sink.writes + 1 } = true) :
    ¬LimitedSink.interrupts { sink with writes := sink.writes + 1 + 1 } := by
  unfold LimitedSink.interrupts at interrupts ⊢
  rcases everyEq : sink.limits.interruptEvery with _ | every
  · simp
  · have two := patient.interruptEvery every everyEq
    simp only [everyEq, beq_iff_eq] at interrupts ⊢
    intro again
    have one := Nat.dvd_sub (Nat.dvd_of_mod_eq_zero again)
      (Nat.dvd_of_mod_eq_zero interrupts)
    rw [Nat.add_sub_cancel_left, Nat.dvd_one] at one
    omega

theorem takes {sink : LimitedSink} (patient : IsPatient sink.limits)
    (bytes : Bytes) :
    ∃ next, Sink.Takes sink bytes next ∧ next.limits = sink.limits := by
  induction lengthEq : bytes.length using Nat.strongRecOn
    generalizing sink bytes with
  | ind length induction =>
      rcases Decidable.em (bytes = []) with rfl | nonempty
      · exact ⟨sink, .nothing sink, rfl⟩
      have positive := List.length_pos_iff.2 nonempty
      have accepts (sink : LimitedSink) (patient : IsPatient sink.limits)
          (quiet : ¬LimitedSink.interrupts
            { sink with writes := sink.writes + 1 }) :
          ∃ next, Sink.Takes sink bytes next ∧ next.limits = sink.limits := by
        obtain ⟨count, fits, middle, taken, write, sameLimits⟩ :=
          write_of_not_interrupts patient nonempty quiet
        obtain ⟨last, later, limitsEq⟩ :=
          induction (bytes.drop count).length
            (by simp only [List.length_drop]; omega)
            (show IsPatient middle.limits from sameLimits ▸ patient) _ rfl
        exact ⟨last, .accepted taken write later, limitsEq.trans sameLimits⟩
      rcases Decidable.em (LimitedSink.interrupts
        { sink with writes := sink.writes + 1 } = true) with interrupts | quiet
      · obtain ⟨last, later, limitsEq⟩ :=
          accepts { sink with writes := sink.writes + 1 } patient
            (not_interrupts_again patient interrupts)
        exact ⟨last, .interrupted nonempty (write_of_interrupts interrupts) later,
          limitsEq⟩
      · exact accepts sink patient quiet

theorem patient_new {limits : SinkLimits} (patient : IsPatient limits) :
    Sink.Patient (new limits) := by
  refine ⟨fun sink => sink.limits = limits, ⟨?_, ?_⟩, rfl⟩
  · intro sink ready bytes
    obtain ⟨next, taken, limitsEq⟩ := takes (ready ▸ patient) bytes
    exact ⟨next, taken, limitsEq.trans ready⟩
  · intro sink ready
    have flushed : sink.limits.flushFailure = none := ready ▸ patient.flushFailure
    refine ⟨{ sink with flushes := sink.flushes + 1 }, ?_⟩
    change flush sink = _
    simp only [flush, flushed]

def hesitant : LimitedSink :=
  new
    { interruptEvery := some 2
      perWrite := some 1
      inTotal := none
      refusal := none
      flushFailure := none }

theorem patient_hesitant : Sink.Patient hesitant := by
  refine patient_new ⟨fun every everyEq => ?_, fun most mostEq => ?_, rfl, rfl⟩
  · cases everyEq
    exact Nat.le_refl 2
  · cases mostEq
    exact Nat.zero_lt_one

end LimitedSink

end StreamCodec
