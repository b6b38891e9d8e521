import StreamCodec.Proofs.Inflate.Laws
import StreamCodec.Proofs.Session.Lifecycle

namespace StreamCodec

/-! What a call waits for that moves nothing, and whether the session tells. -/

namespace InflateEngine

variable {ι : Type} [InflateEngine ι]

inductive StandsStill (engine : ι) (input : Bytes) (room : Nat) : Prop
  | of_run {step : Step input room} {next : ι}
      (ran : run engine .none input room = (.ok step, next))
      (going : step.status ≠ .streamEnd) (idle : step.IsIdle)

/-- Only want of input or of room keeps an engine from going on, and room is no help
against want of input. -/
structure Stalls (ι : Type) [InflateEngine ι] (format : Format) : Prop where
  stalled {engine : ι} {input : Bytes} {room : Nat} :
    Opened format engine → StandsStill engine input room →
      (input = [] ∧ ∀ larger, StandsStill engine [] larger) ∨ room = 0

end InflateEngine

namespace Inflate

namespace Decoder

variable {decoder next : Decoder} {room : Nat}

private theorem give_of_settled (settled : decoder.phase.backlog = 0) (consumed : Nat)
    (written : Bytes) (room : Nat) :
    decoder.give consumed written room = ⟨decoder, consumed, room, written⟩ := by
  cases room with
  | zero => rfl
  | succ room =>
      unfold give
      split
      · next found => rw [found] at settled; cases settled
      · next found => rw [found] at settled; cases settled
      · rfl

theorem settled_of_idle {step : Step [] room}
    (ran : decoder.run .none [] room = (.ok step, next)) (going : step.status ≠ .streamEnd)
    (idle : step.IsIdle) (settled : next.phase.backlog = 0) :
    decoder.phase.backlog = 0 := by
  have steps := steps_of_run ran
  have absorbEq := steps.absorbs.absorb_eq []
  rw [Transfer.taken_of_isIdle idle, idle.2] at absorbEq
  have meaningEq : (decoder.absorb [] []).meaning = ⟨[], .unfinished⟩ := by
    rw [← steps.unfinished going]
    exact congrArg Yield.meaning (absorbEq.trans (settle_of_backlog settled []))
  apply Decidable.byContradiction
  intro backlog
  rcases goesBeyond_of_backlog backlog [] [] with more | faulty
  · exact more (congrArg Meaning.content meaningEq)
  · rw [meaningEq] at faulty
    cases faulty

theorem standsStill_of_settled (settled : decoder.phase.backlog = 0)
    (unfinished : decoder.phase.verdict = .unfinished) (room : Nat) :
    InflateEngine.StandsStill decoder [] room := by
  have stays : decoder.advance 0 room [] [] = ⟨decoder, 0, room, []⟩ :=
    give_of_settled settled 0 [] room
  have sound (fault : Fault) : decoder.phase ≠ .failed fault := by
    intro failed
    rw [failed] at unfinished
    cases unfinished
  rcases ran : decoder.run .none [] room with ⟨words | step, next⟩
  · unfold run at ran
    split at ran
    · next failed => exact absurd failed (sound _)
    · simp only at ran
      split at ran
      · next failed =>
          rw [stays] at failed
          exact absurd failed (sound _)
      · cases ran
  · obtain ⟨rfl, consumedEq, outputEq⟩ := reach_of_run ran
    have ended_iff := (steps_of_run ran).ended_iff
    rw [stays] at consumedEq outputEq ended_iff
    refine .of_run ran (fun ended => ?_) ⟨consumedEq, outputEq⟩
    rw [ended_iff.1 ended] at unfinished
    cases unfinished

end Decoder

theorem stalls (format : Format) : InflateEngine.Stalls Decoder format where
  stalled {engine input room} _ still := by
    cases still with
    | @of_run step next ran going idle =>
        rcases Decoder.stalled_of_run ran going idle [] with
          ⟨rfl, settled⟩ | ⟨full, _⟩
        · have before := Decoder.settled_of_idle ran going idle settled
          have unfinished := (Decoder.steps_of_run ran).unfinished going
          have nextEq : next = engine := by
            rw [(Decoder.reach_of_run ran).1]
            exact congrArg Reach.decoder (Decoder.give_of_settled before 0 [] room)
          rw [nextEq] at unfinished
          exact .inl ⟨rfl, Decoder.standsStill_of_settled before unfinished⟩
        · exact .inr full

end Inflate

namespace InflateSession

variable {ι : Type} [InflateEngine ι]

/-- The call fails, ends the stream, or moves a byte. -/
inductive GetsOn (session : InflateSession ι) (input : Bytes) (room : Nat) : Prop
  | fails {error : CodecError} {next : InflateSession ι}
      (answered : session.decompress input room = (.error error, next))
  | ends {decoded : Decoded input room} {next : InflateSession ι}
      (answered : session.decompress input room = (.ok decoded, next))
      (finished : next.finished = true)
  | moves {decoded : Decoded input room} {next : InflateSession ι}
      (answered : session.decompress input room = (.ok decoded, next))
      (busy : ¬decoded.IsIdle)

variable {input : Bytes} {room : Nat}

/-- The call moved nothing, and the same input with more room would have got on. -/
structure WantsRoom (session : InflateSession ι) (decoded : Decoded input room) :
    Prop where
  idle : decoded.IsIdle
  helped : ∃ larger, room < larger ∧ session.GetsOn input larger

variable {session next : InflateSession ι} {engine : ι} {decoded : Decoded input room}

private theorem getsOn_of_moved
    (answered : (session.decompress input room).1 = .ok decoded) (busy : ¬decoded.IsIdle) :
    session.GetsOn input room :=
  .moves (Prod.ext answered rfl) busy

private theorem decompress_of_error {format : Format} {wasReset : Bool}
    {words : Option String}
    {later : ι} (ran : InflateEngine.run engine .none input room = (.error words, later)) :
    (⟨format, some engine, false, wasReset⟩ : InflateSession ι).decompress input room =
      (.error (.corruptInput (.inflate words)),
        ⟨format, some later, false, wasReset⟩) := by
  simp only [decompress, Engine.inflate, ran]

private theorem decompress_of_step {format : Format} {wasReset : Bool}
    {step : Step input room}
    {later : ι} (ran : InflateEngine.run engine .none input room = (.ok step, later)) :
    (⟨format, some engine, false, wasReset⟩ : InflateSession ι).decompress input room =
      (.ok
        { step.toTransfer with
          needMoreOutput :=
            step.IsIdle && !(step.status == .streamEnd) && !input.isEmpty },
        ⟨format, some later, step.status == .streamEnd, wasReset⟩) := by
  simp only [decompress, Engine.inflate, ran]

theorem getsOn_iff (present : session.engine? = some engine)
    (going : session.finished = false) :
    session.GetsOn input room ↔ ¬InflateEngine.StandsStill engine input room := by
  rcases session with ⟨format, _, _, wasReset⟩
  cases present
  cases going
  constructor
  · rintro getsOn ⟨ran, going, idle⟩
    cases getsOn with
    | fails answered =>
        rw [decompress_of_step ran] at answered
        cases answered
    | ends answered finished =>
        rw [decompress_of_step ran] at answered
        cases answered
        exact going (eq_of_beq finished)
    | moves answered busy =>
        rw [decompress_of_step ran] at answered
        cases answered
        exact busy idle
  · intro moves
    rcases ran : InflateEngine.run engine .none input room with ⟨words | step, later⟩
    · exact .fails (decompress_of_error ran)
    · rcases Decidable.em (step.status = .streamEnd) with ended | goesOn
      · exact .ends (decompress_of_step ran) (beq_iff_eq.2 ended)
      · exact .moves (decompress_of_step ran) fun idle =>
          moves (.of_run ran goesOn idle)

/-- What the engine did on a call that succeeds and leaves the stream unfinished. -/
structure Continued (session : InflateSession ι) (engine : ι)
    (decoded : Decoded input room) : Prop where
  present : session.engine? = some engine
  going : session.finished = false
  idle_iff : decoded.IsIdle ↔ InflateEngine.StandsStill engine input room
  flag_iff : decoded.needMoreOutput = true ↔ input ≠ [] ∧ decoded.IsIdle

private theorem continued_of_decompress
    (answered : session.decompress input room = (.ok decoded, next))
    (unfinished : next.finished = false) :
    ∃ engine, session.Continued engine decoded := by
  rcases session with ⟨format, _ | engine, _ | _, wasReset⟩
  any_goals cases answered
  rcases ran : InflateEngine.run engine .none input room with ⟨words | step, later⟩
  · rw [decompress_of_error ran] at answered
    cases answered
  · rw [decompress_of_step ran] at answered
    cases answered
    have goesOn : step.status ≠ .streamEnd := ne_of_beq_false unfinished
    refine ⟨engine, rfl, rfl, ⟨.of_run ran goesOn, fun still => ?_⟩, ?_⟩
    · cases still with
      | of_run sameRan _ idle =>
          rw [ran] at sameRan
          cases sameRan
          exact idle
    · simp [goesOn, and_comm, Transfer.IsIdle]

/-- There is something to be had without any further input. -/
def HoldsBack (session : InflateSession ι) : Prop :=
  ∃ room, session.GetsOn [] room

private theorem isIdle_of_no_room (decoded : Decoded [] 0) : decoded.IsIdle :=
  ⟨Nat.le_zero.1 decoded.consumed_le,
    List.eq_nil_of_length_eq_zero (Nat.le_zero.1 decoded.output_le)⟩

namespace Continued

theorem getsOn_iff (continued : session.Continued engine decoded) (input : Bytes)
    (room : Nat) :
    session.GetsOn input room ↔ ¬InflateEngine.StandsStill engine input room :=
  InflateSession.getsOn_iff continued.present continued.going

private theorem wants_of_held {decoded : Decoded [] 0}
    (continued : session.Continued engine decoded) (held : session.HoldsBack) :
    session.WantsRoom decoded := by
  obtain ⟨larger, helps⟩ := held
  have idle := isIdle_of_no_room decoded
  refine ⟨idle, larger, ?_, helps⟩
  apply Nat.pos_of_ne_zero
  rintro rfl
  exact (continued.getsOn_iff [] 0).1 helps (continued.idle_iff.1 idle)

variable {format : Format} (stalls : InflateEngine.Stalls ι format)
  (opened : InflateEngine.Opened format engine)

include stalls opened

theorem asks_rightly (continued : session.Continued engine decoded)
    (asked : decoded.needMoreOutput = true) :
    room = 0 ∧ ∀ larger, 0 < larger → session.GetsOn input larger := by
  obtain ⟨given, idle⟩ := continued.flag_iff.1 asked
  constructor
  · rcases stalls.stalled opened (continued.idle_iff.1 idle) with ⟨spent, _⟩ | full
    · exact absurd spent given
    · exact full
  · intro larger roomy
    rw [continued.getsOn_iff]
    intro still
    rcases stalls.stalled opened still with ⟨spent, _⟩ | full
    · exact given spent
    · exact absurd full (Nat.ne_of_gt roomy)

theorem asks_iff (continued : session.Continued engine decoded) :
    decoded.needMoreOutput = true ↔ input ≠ [] ∧ session.WantsRoom decoded := by
  constructor
  · intro asked
    obtain ⟨given, idle⟩ := continued.flag_iff.1 asked
    obtain ⟨rfl, helps⟩ := continued.asks_rightly stalls opened asked
    exact ⟨given, idle, 1, Nat.one_pos, helps 1 Nat.one_pos⟩
  · rintro ⟨given, wants⟩
    exact continued.flag_iff.2 ⟨given, wants.idle⟩

theorem wants_unasked_iff (continued : session.Continued engine decoded) :
    session.WantsRoom decoded ∧ decoded.needMoreOutput = false ↔
      input = [] ∧ room = 0 ∧ session.HoldsBack := by
  have asks_iff := continued.asks_iff stalls opened
  constructor
  · rintro ⟨wants, silent⟩
    have spent : input = [] := by
      apply Decidable.byContradiction
      intro given
      rw [asks_iff.2 ⟨given, wants⟩] at silent
      cases silent
    subst spent
    obtain ⟨idle, larger, _, helps⟩ := wants
    refine ⟨rfl, ?_, larger, helps⟩
    rcases stalls.stalled opened (continued.idle_iff.1 idle) with ⟨_, always⟩ | full
    · exact absurd (always larger) ((continued.getsOn_iff [] larger).1 helps)
    · exact full
  · rintro ⟨rfl, rfl, held⟩
    refine ⟨continued.wants_of_held held, ?_⟩
    apply Bool.eq_false_iff.2
    intro asked
    exact (asks_iff.1 asked).1 rfl

end Continued

/-- The session asks for room only if room alone helps, and asks whenever it does, but for
what it holds back while there is no input. -/
theorem needMoreOutput_iff {format : Format} (stalls : InflateEngine.Stalls ι format)
    (requests : List Request)
    (answered : ((new format : InflateSession ι).afterAll requests).decompress input room =
      (.ok decoded, next))
    (unfinished : next.finished = false) :
    let session := (new format : InflateSession ι).afterAll requests
    (decoded.needMoreOutput = true ↔ input ≠ [] ∧ session.WantsRoom decoded) ∧
    (decoded.needMoreOutput = true →
      room = 0 ∧ ∀ larger, 0 < larger → session.GetsOn input larger) ∧
    (session.WantsRoom decoded ∧ decoded.needMoreOutput = false ↔
      input = [] ∧ room = 0 ∧ session.HoldsBack) := by
  intro session
  have records : Records format _ session := (records_new format).afterAll requests
  obtain ⟨engine, continued⟩ := continued_of_decompress answered unfinished
  have opened := records.opened engine continued.present
  exact ⟨continued.asks_iff stalls opened, continued.asks_rightly stalls opened,
    continued.wants_unasked_iff stalls opened⟩

def withLiteral : InflateSession Inflate.Decoder :=
  (new .deflate).afterAll [.setUp, .decompress [0x4b, 0x04] 0]

theorem needMoreOutput_iff_of_literal :
    InflateEngine.Stalls Inflate.Decoder .deflate ∧
    ∃ decoded : Decoded [0x00] 0,
      withLiteral.decompress [0x00] 0 = (.ok decoded, withLiteral) ∧
      withLiteral.finished = false ∧ decoded.needMoreOutput = true ∧
      ∀ larger, 0 < larger → withLiteral.GetsOn [0x00] larger := by
  have stalls := Inflate.stalls .deflate
  let decoded : Decoded [0x00] 0 := ⟨.idle [0x00] 0, true⟩
  have answered : withLiteral.decompress [0x00] 0 = (.ok decoded, withLiteral) := by rfl
  have unfinished : withLiteral.finished = false := by rfl
  obtain ⟨_, asks, _⟩ := needMoreOutput_iff stalls _ answered unfinished
  exact ⟨stalls, decoded, answered, unfinished, rfl, (asks rfl).2⟩

/-- The literal waits for room as well if no byte comes behind it, but then the session
asks for none. -/
theorem needMoreOutput_not_iff_wants :
    ¬∀ (ι : Type) [InflateEngine ι] (format : Format), InflateEngine.Stalls ι format →
      ∀ (requests : List Request) (input : Bytes) (room : Nat)
        (decoded : Decoded input room) (next : InflateSession ι),
        let session := (new format : InflateSession ι).afterAll requests
        session.decompress input room = (.ok decoded, next) → next.finished = false →
        (decoded.needMoreOutput = true ↔ session.WantsRoom decoded) := by
  intro always
  let literal : Decoded [] 1 := ⟨⟨0, [0x61], by decide, by decide⟩, false⟩
  have given : (withLiteral.decompress [] 1).1 = .ok literal := by rfl
  have helped : withLiteral.GetsOn [] 1 := getsOn_of_moved given (by decide)
  let silent : Decoded [] 0 := ⟨.idle [] 0, false⟩
  have answered : withLiteral.decompress [] 0 = (.ok silent, withLiteral) := by rfl
  have unfinished : withLiteral.finished = false := by rfl
  have asked := (always Inflate.Decoder .deflate (Inflate.stalls .deflate) _ [] 0 silent
    withLiteral answered unfinished).2 ⟨isIdle_of_no_room silent, 1, Nat.one_pos, helped⟩
  cases asked

end InflateSession

end StreamCodec
