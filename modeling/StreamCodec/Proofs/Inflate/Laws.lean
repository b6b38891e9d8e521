import StreamCodec.Inflate.Engine
import StreamCodec.Proofs.Engine.Inflating
import StreamCodec.Proofs.Inflate.Absorption

namespace StreamCodec.Inflate

/-! However its calls are cut, the decoder follows the grammar of its format. -/

namespace Decoder

private theorem settle_give (decoder : Decoder) (consumed : Nat) (written : Bytes)
    (room : Nat) :
    (decoder.give consumed written room).decoder.settle
        (decoder.give consumed written room).written =
      decoder.settle written := by
  induction room generalizing decoder written with
  | zero => rfl
  | succ room induction =>
      unfold give
      split
      · next phaseEq => rw [induction, settle_of_literal phaseEq]
      · next phaseEq =>
          split
          · next back => rw [induction, settle_of_copied phaseEq back]
          · next back =>
              rw [settle_of_tooFar phaseEq back]
              exact settle_of_backlog rfl written
      · rfl

private theorem backlog_give (decoder : Decoder) (consumed : Nat) (written : Bytes)
    (room : Nat) :
    0 < (decoder.give consumed written room).room →
      (decoder.give consumed written room).decoder.phase.backlog = 0 := by
  induction room generalizing decoder written with
  | zero => exact fun space => absurd space (Nat.lt_irrefl 0)
  | succ room induction =>
      unfold give
      split
      · exact induction _ _
      · split
        · exact induction _ _
        · exact fun _ => rfl
      · next notLiteral notCopy =>
          intro _
          cases phaseEq : decoder.phase
          case literal byte => exact (notLiteral byte phaseEq).elim
          case copy length distance =>
            exact (notCopy length distance phaseEq).elim
          all_goals rfl

private theorem advance_cons (decoder : Decoder) (consumed room : Nat)
    (written : Bytes) (byte : UInt8) (rest : Bytes) :
    let reach := decoder.give consumed written room
    let accepted := reach.decoder.accept byte reach.written
    (reach.decoder.phase.wantsByte = true ∧
        ∃ left, decoder.advance consumed room written (byte :: rest) =
          accepted.decoder.advance (consumed + 1) left accepted.written rest) ∨
      (decoder.advance consumed room written (byte :: rest) = reach ∧
        (reach.decoder.phase.wantsByte = true →
          reach.room = 0 ∧ ∃ left, reach.decoder.phase = .stored left)) := by
  have consumedEq := give_consumed decoder consumed room written
  simp only [advance]
  generalize decoder.give consumed written room = reach at consumedEq ⊢
  subst consumedEq
  unfold accept
  cases reach.decoder.phase with
  | octets => exact .inl ⟨rfl, _, rfl⟩
  | bits => exact .inl ⟨rfl, _, rfl⟩
  | symbol => exact .inl ⟨rfl, _, rfl⟩
  | stored left =>
      rcases roomEq : reach.room with _ | room
      · exact .inr ⟨rfl, fun _ => ⟨rfl, left, rfl⟩⟩
      · exact .inl ⟨rfl, room, rfl⟩
  | literal => exact .inr ⟨rfl, Bool.noConfusion⟩
  | copy => exact .inr ⟨rfl, Bool.noConfusion⟩
  | finished => exact .inr ⟨rfl, Bool.noConfusion⟩
  | failed => exact .inr ⟨rfl, Bool.noConfusion⟩

/-- The bytes taken are absorbed, and each was wanted when it was taken. -/
structure Absorbs (decoder : Decoder) (written taken : Bytes) (later : Decoder)
    (laterWritten : Bytes) : Prop where
  absorb_eq (more : Bytes) :
    decoder.absorb written (taken ++ more) = later.absorb laterWritten more
  unfinished {count : Nat} : count < taken.length →
    (decoder.absorb written (taken.take count)).decoder.phase.verdict =
      .unfinished

theorem absorbs_of_settle {decoder later : Decoder}
    {written laterWritten : Bytes}
    (same : later.settle laterWritten = decoder.settle written) :
    Absorbs decoder written [] later laterWritten where
  absorb_eq more := absorb_of_settle same.symm more
  unfinished inside := absurd inside (Nat.not_lt_zero _)

private theorem verdict_of_wantsByte {phase : Phase} (wants : phase.wantsByte = true) :
    phase.verdict = .unfinished ∧ phase.backlog = 0 := by
  cases phase <;> first | exact ⟨rfl, rfl⟩ | cases wants

theorem Absorbs.accept {decoder settled later : Decoder} {byte : UInt8}
    {written settledWritten taken laterWritten : Bytes}
    (same : settled.settle settledWritten = decoder.settle written)
    (wants : settled.phase.wantsByte = true)
    (absorbs :
      Absorbs (settled.accept byte settledWritten).decoder
        (settled.accept byte settledWritten).written taken later laterWritten) :
    Absorbs decoder written (byte :: taken) later laterWritten := by
  obtain ⟨unfinished, noBacklog⟩ := verdict_of_wantsByte wants
  rw [settle_of_backlog noBacklog] at same
  have accepts (input : Bytes) :
      decoder.absorb written (byte :: input) =
        (settled.accept byte settledWritten).decoder.absorb
          (settled.accept byte settledWritten).written input := by
    simp only [absorb, ← same, wants, if_true]
  refine ⟨fun more => ?_, fun {count} inside => ?_⟩
  · rw [List.cons_append, accepts]
    exact absorbs.absorb_eq more
  · cases count with
    | zero =>
        change (decoder.settle written).decoder.phase.verdict = .unfinished
        rw [← same]
        exact unfinished
    | succ count =>
        rw [List.take_succ_cons, accepts]
        exact absorbs.unfinished (Nat.lt_of_succ_lt_succ inside)

theorem advance_absorbs (decoder : Decoder) (consumed room : Nat)
    (written input : Bytes) :
    let reach := decoder.advance consumed room written input
    ∃ count, reach.consumed = consumed + count ∧
      Absorbs decoder written (input.take count) reach.decoder reach.written := by
  induction input generalizing decoder consumed room written with
  | nil =>
      refine ⟨0, ?_, absorbs_of_settle (settle_give decoder consumed written room)⟩
      exact give_consumed decoder consumed room written
  | cons byte rest induction =>
      have settles := settle_give decoder consumed written room
      rcases advance_cons decoder consumed room written byte rest with
        ⟨wants, left, advanced⟩ | ⟨advanced, _⟩
      · obtain ⟨count, consumedEq, absorbs⟩ := induction _ (consumed + 1) left _
        rw [advanced]
        refine ⟨count + 1, consumedEq.trans (by omega), ?_⟩
        exact absorbs.accept settles wants
      · rw [advanced]
        exact ⟨0, give_consumed decoder consumed room written,
          absorbs_of_settle settles⟩

private theorem backlog_advance (decoder : Decoder) (consumed room : Nat)
    (written input : Bytes) :
    0 < (decoder.advance consumed room written input).room →
      (decoder.advance consumed room written input).decoder.phase.backlog =
        0 := by
  induction input generalizing decoder consumed room written with
  | nil => exact backlog_give decoder consumed written room
  | cons byte rest induction =>
      rcases advance_cons decoder consumed room written byte rest with
        ⟨_, left, advanced⟩ | ⟨advanced, _⟩
      · rw [advanced]
        exact induction _ _ left _
      · rw [advanced]
        exact backlog_give decoder consumed written room

theorem Absorbs.trans {first middle last : Decoder}
    {written middleWritten lastWritten taken later : Bytes}
    (before : Absorbs first written taken middle middleWritten)
    (after : Absorbs middle middleWritten later last lastWritten) :
    Absorbs first written (taken ++ later) last lastWritten := by
  refine ⟨fun more => ?_, fun {count} inside => ?_⟩
  · rw [List.append_assoc, before.absorb_eq, after.absorb_eq]
  · rw [List.take_append]
    rcases Nat.lt_or_ge count taken.length with early | late
    · rw [Nat.sub_eq_zero_of_le (Nat.le_of_lt early), List.take_zero,
        List.append_nil]
      exact before.unfinished early
    · rw [List.take_of_length_le late, before.absorb_eq]
      apply after.unfinished
      rw [List.length_append] at inside
      omega

theorem Absorbs.onto {decoder later : Decoder} {taken laterWritten : Bytes}
    (absorbs : Absorbs decoder [] taken later laterWritten) (written : Bytes) :
    Absorbs decoder written taken later (laterWritten ++ written) := by
  refine ⟨fun more => ?_, fun {count} inside => ?_⟩
  · rw [← List.nil_append written, absorb_append_written, absorbs.absorb_eq,
      List.nil_append, absorb_append_written]
  · rw [← List.nil_append written, absorb_append_written]
    exact absorbs.unfinished inside

section

variable {format : Format} {decoder : Decoder} {consumed written : Bytes}
  (absorbs : Absorbs (start format) [] consumed decoder written)

include absorbs

theorem Absorbs.read_append (more : Bytes) :
    (grammar format).read (consumed ++ more) =
      (decoder.absorb written more).meaning := by
  change Yield.meaning _ = _
  rw [absorbs.absorb_eq]

theorem Absorbs.read_of_settled (settled : decoder.phase.backlog = 0) :
    (grammar format).read consumed =
      ⟨written.reverse, decoder.phase.verdict⟩ := by
  have readEq := absorbs.read_append []
  rw [List.append_nil] at readEq
  rw [readEq, absorb, settle_of_backlog settled]
  rfl

theorem Absorbs.written_prefix (more : Bytes) :
    written.reverse <+: ((grammar format).read (consumed ++ more)).content := by
  rw [absorbs.read_append, ← List.nil_append written, absorb_append_written]
  simp only [Yield.meaning, List.nil_append, List.reverse_append]
  exact List.prefix_append _ _

theorem Absorbs.isStream (finished : decoder.phase = .finished) :
    (grammar format).IsStream consumed written.reverse := by
  refine ⟨?_, fun {shorter} isPrefix different => ?_⟩
  · rw [absorbs.read_of_settled (by rw [finished]; rfl), finished]
    rfl
  · have takeEq := List.prefix_iff_eq_take.1 isPrefix
    rw [takeEq]
    apply absorbs.unfinished
    apply Nat.lt_of_le_of_ne isPrefix.length_le
    intro sameLength
    exact different (isPrefix.eq_of_length sameLength)

end

section

variable {decoder next : Decoder} {flush : Flush} {input : Bytes} {room : Nat}

/-- A call that succeeds got somewhere and met no fault there. -/
structure Steps (decoder : Decoder) (input : Bytes) (room : Nat)
    (step : Step input room) (next : Decoder) : Prop where
  absorbs : Absorbs decoder [] step.taken next step.output.reverse
  sound : next.phase.verdict ≠ .faulty
  ended_iff : step.status = .streamEnd ↔ next.phase = .finished
  drained : step.output.length < room → next.phase.backlog = 0

theorem steps_of_run {step : Step input room}
    (ran : decoder.run flush input room = (.ok step, next)) :
    Steps decoder input room step next := by
  obtain ⟨count, consumedEq, absorbs⟩ :=
    decoder.advance_absorbs 0 room [] input
  have backlog := decoder.backlog_advance 0 room [] input
  have balance := decoder.advance_room 0 room [] input
  unfold run at ran
  split at ran
  · cases ran
  · simp only at ran
    split at ran
    · cases ran
    · next sound =>
        cases ran
        rw [Nat.zero_add] at consumedEq
        subst consumedEq
        refine ⟨?_, ?_, ?_, ?_⟩
        · simp only [Decoder.step, Transfer.taken, List.reverse_reverse]
          exact absorbs
        · cases phaseEq :
            (decoder.advance 0 room [] input).decoder.phase with
          | failed fault => exact (sound fault phaseEq).elim
          | _ => exact Verdict.noConfusion
        · simp only [Decoder.step]
          split
          · next finished => simp only [finished]
          · next going =>
              refine ⟨fun ended => ?_, fun finished => (going finished).elim⟩
              split at ended <;> cases ended
        · intro space
          apply backlog
          simp only [Decoder.step, List.length_reverse] at space
          simp only [List.length_nil, Nat.zero_add] at balance
          omega

private theorem faulty_of_run {words : Option String}
    (unfinished : decoder.phase.verdict = .unfinished)
    (ran : decoder.run flush input room = (.error words, next)) :
    ∃ (taken : Bytes) (written : Bytes), taken <+: input ∧
      written.length ≤ room ∧ Absorbs decoder [] taken next written ∧
      next.phase.verdict = .faulty := by
  obtain ⟨count, _, absorbs⟩ := decoder.advance_absorbs 0 room [] input
  have fits := decoder.advance_written_le room input
  unfold run at ran
  split at ran
  · next failed =>
      rw [failed] at unfinished
      cases unfinished
  · simp only at ran
    split at ran
    · next failed =>
        cases ran
        exact ⟨_, _, List.take_prefix count input, fits, absorbs, by rw [failed]; rfl⟩
    · cases ran

end

/-! What a decoder holds back shows in what it writes with more room. -/

private theorem goesBeyond_of_more {decoder : Decoder} {written longer : Bytes}
    {byte : UInt8} {input : Bytes} {yield : Yield}
    (absorbEq : yield = decoder.absorb (byte :: longer) input)
    (same : longer = written) : yield.meaning.GoesBeyond written.reverse := by
  subst absorbEq same
  refine .inl fun contentEq => ?_
  rw [← List.nil_append (byte :: longer), absorb_append_written] at contentEq
  have lengthEq := congrArg List.length contentEq
  simp only [Yield.meaning, List.length_reverse, List.length_append,
    List.length_cons] at lengthEq
  omega

theorem goesBeyond_of_backlog {decoder : Decoder}
    (backlog : decoder.phase.backlog ≠ 0) (written input : Bytes) :
    (decoder.absorb written input).meaning.GoesBeyond written.reverse := by
  cases phaseEq : decoder.phase with
  | literal byte =>
      have settles := settle_of_literal phaseEq written
      exact goesBeyond_of_more (absorb_of_settle settles input) rfl
  | copy length distance =>
      rcases back : decoder.window.back? distance with _ | byte
      · have settles := settle_of_tooFar phaseEq back written
        have failed : (decoder.fail .distanceTooFar).settle written =
            ⟨decoder.fail .distanceTooFar, written⟩ :=
          settle_of_backlog rfl written
        rw [absorb_of_settle (settles.trans failed.symm),
          absorb_of_over Verdict.noConfusion]
        exact .inr rfl
      · have settles := settle_of_copied phaseEq back written
        exact goesBeyond_of_more (absorb_of_settle settles input) rfl
  | _ => simp only [phaseEq, Phase.backlog, ne_eq, not_true] at backlog

private theorem goesBeyond_of_stored {decoder : Decoder} {left : Nat}
    (phaseEq : decoder.phase = .stored left) (written : Bytes) (byte : UInt8)
    (rest : Bytes) :
    (decoder.absorb written (byte :: rest)).meaning.GoesBeyond
      written.reverse := by
  have settles : decoder.settle written = ⟨decoder, written⟩ :=
    settle_of_backlog (by rw [phaseEq]; rfl) written
  have absorbEq : decoder.absorb written (byte :: rest) =
      (decoder.takeStored byte left).absorb (byte :: written) rest := by
    simp only [absorb, settles, phaseEq, Phase.wantsByte, if_true, accept]
  exact goesBeyond_of_more absorbEq rfl

private theorem stuck_of_cons {decoder : Decoder} {byte : UInt8} {rest : Bytes}
    {room : Nat} (noneTaken :
      (decoder.advance 0 room [] (byte :: rest)).consumed = 0)
    (unfinished :
      (decoder.advance 0 room [] (byte :: rest)).decoder.phase.verdict =
        .unfinished) :
    decoder.advance 0 room [] (byte :: rest) = decoder.give 0 [] room ∧
      ((decoder.give 0 [] room).decoder.phase.backlog ≠ 0 ∨
        (decoder.give 0 [] room).room = 0 ∧
          ∃ left, (decoder.give 0 [] room).decoder.phase = .stored left) := by
  rcases advance_cons decoder 0 room [] byte rest with
    ⟨_, left, advanced⟩ | ⟨advanced, waits⟩
  · obtain ⟨count, consumedEq, _⟩ := advance_absorbs
      ((decoder.give 0 [] room).decoder.accept byte
        (decoder.give 0 [] room).written).decoder (0 + 1) left
      ((decoder.give 0 [] room).decoder.accept byte
        (decoder.give 0 [] room).written).written rest
    rw [advanced, consumedEq] at noneTaken
    omega
  · refine ⟨advanced, ?_⟩
    rw [advanced] at unfinished
    rcases Decidable.em ((decoder.give 0 [] room).decoder.phase.backlog = 0) with
      settled | backlog
    · apply Or.inr
      apply waits
      exact Decidable.byContradiction fun wantsNone =>
        over_of_settled settled wantsNone unfinished
    · exact .inl backlog

theorem effect_run (decoder : Decoder) (flush other : Flush) (input : Bytes)
    (room : Nat) :
    (decoder.run flush input room).1.map Step.effect =
      (decoder.run other input room).1.map Step.effect := by
  unfold run
  split
  · rfl
  · simp only
    split
    · rfl
    · refine congrArg Except.ok (Prod.ext rfl ?_)
      simp only [Step.effect, step]
      split
      · rfl
      · split <;> split <;> rfl

theorem reach_of_run {decoder next : Decoder} {flush : Flush} {input : Bytes}
    {room : Nat} {step : Step input room}
    (ran : decoder.run flush input room = (.ok step, next)) :
    next = (decoder.advance 0 room [] input).decoder ∧
      step.consumed = (decoder.advance 0 room [] input).consumed ∧
      step.output = (decoder.advance 0 room [] input).written.reverse := by
  unfold run at ran
  split at ran
  · cases ran
  · simp only at ran
    split at ran <;> cases ran
    exact ⟨rfl, rfl, rfl⟩

theorem Steps.unfinished {decoder next : Decoder} {input : Bytes} {room : Nat}
    {step : Step input room} (steps : Steps decoder input room step next)
    (going : step.status ≠ .streamEnd) : next.phase.verdict = .unfinished := by
  have sound := steps.sound
  have notFinished := mt steps.ended_iff.2 going
  cases phaseEq : next.phase with
  | finished => exact (notFinished phaseEq).elim
  | failed => rw [phaseEq] at sound; exact (sound rfl).elim
  | _ => rfl

theorem stalled_of_run {decoder next : Decoder} {flush : Flush} {input : Bytes}
    {room : Nat} {step : Step input room}
    (ran : decoder.run flush input room = (.ok step, next))
    (going : step.status ≠ .streamEnd) (idle : step.IsIdle) (written : Bytes) :
    (input = [] ∧ next.phase.backlog = 0) ∨
      (room = 0 ∧ (next.absorb written input).meaning.GoesBeyond
        written.reverse) := by
  have steps := steps_of_run ran
  have full (backlog : next.phase.backlog ≠ 0) : room = 0 := by
    have spaceless := mt steps.drained backlog
    rw [idle.2] at spaceless
    exact Nat.eq_zero_of_not_pos spaceless
  rcases input with _ | ⟨byte, rest⟩
  · rcases Decidable.em (next.phase.backlog = 0) with settled | backlog
    · exact .inl ⟨rfl, settled⟩
    · exact .inr ⟨full backlog, goesBeyond_of_backlog backlog written []⟩
  · apply Or.inr
    have unfinished := steps.unfinished going
    obtain ⟨nextEq, consumedEq, outputEq⟩ := reach_of_run ran
    rw [idle.1] at consumedEq
    rw [nextEq] at unfinished
    obtain ⟨advanced, reason⟩ := stuck_of_cons consumedEq.symm unfinished
    rw [advanced] at nextEq outputEq
    rcases reason with backlog | ⟨spent, left, stored⟩
    · rw [← nextEq] at backlog
      exact ⟨full backlog, goesBeyond_of_backlog backlog written _⟩
    · rw [← nextEq] at stored
      have balance := give_room decoder 0 room []
      have noneWritten : (decoder.give 0 [] room).written = [] := by
        rw [idle.2] at outputEq
        exact List.reverse_eq_nil_iff.1 outputEq.symm
      rw [noneWritten, spent] at balance
      refine ⟨by simpa using balance.symm, ?_⟩
      exact goesBeyond_of_stored stored written byte rest

theorem Absorbs.run {format : Format} {consumed written : Bytes}
    {decoder next : Decoder} {flush : Flush} {input : Bytes} {room : Nat}
    {step : Step input room}
    (absorbs : Absorbs (start format) [] consumed decoder written.reverse)
    (ran : decoder.run flush input room = (.ok step, next)) :
    Absorbs (start format) [] (consumed ++ step.taken) next
      (written ++ step.output).reverse := by
  rw [List.reverse_append]
  exact absorbs.trans ((steps_of_run ran).absorbs.onto written.reverse)

private theorem reached_absorbs {format : Format} {consumed written : Bytes}
    {decoder : Decoder}
    (reached : InflateEngine.Reached format consumed written decoder) :
    Absorbs (start format) [] consumed decoder written.reverse ∧
      decoder.phase.verdict = .unfinished := by
  induction reached with
  | start =>
      refine ⟨absorbs_of_settle rfl, ?_⟩
      change (Decoder.start format).phase.verdict = _
      cases format <;> rfl
  | call reached ran going induction =>
      have steps := steps_of_run ran
      exact ⟨induction.1.run ran, steps.unfinished going⟩

end Decoder

theorem follows_grammar (format : Format) :
    InflateEngine.Follows Decoder format (grammar format) where
  effect_eq {decoder _ _} flush input room _ := decoder.effect_run flush .none input room
  written_prefix {engine next consumed written input room step} reached ran := by
    have absorbs := (Decoder.reached_absorbs reached).1.run ran
    have grown := absorbs.written_prefix []
    rwa [List.append_nil, List.reverse_reverse] at grown
  ended {engine next consumed written input room step} reached ran ended := by
    have steps := Decoder.steps_of_run ran
    have absorbs := (Decoder.reached_absorbs reached).1.run ran
    have isStream := absorbs.isStream (steps.ended_iff.1 ended)
    rwa [List.reverse_reverse] at isStream
  failed {engine next consumed written input room words} reached ran := by
    obtain ⟨absorbs, unfinished⟩ := Decoder.reached_absorbs reached
    obtain ⟨taken, added, ⟨rest, rfl⟩, fits, absorbed, faulty⟩ :=
      Decoder.faulty_of_run unfinished ran
    have isOver : next.phase.verdict ≠ .unfinished := by simp [faulty]
    have readEq := (absorbs.trans (absorbed.onto _)).read_append rest
    rw [List.append_assoc, Decoder.absorb_of_over isOver] at readEq
    rw [readEq]
    refine ⟨faulty, ?_⟩
    simp only [Yield.meaning, List.length_reverse, List.length_append]
    omega
  drained {engine next consumed written input room step} reached ran going usedUp
      space _ := by
    have steps := Decoder.steps_of_run ran
    have absorbs := (Decoder.reached_absorbs reached).1.run ran
    have readEq := absorbs.read_of_settled (steps.drained space)
    rwa [Transfer.taken_eq_of_rest usedUp, List.reverse_reverse,
      steps.unfinished going] at readEq
  stalled {engine next consumed written input room step} reached ran going idle := by
    have steps := Decoder.steps_of_run ran
    have absorbs := (Decoder.reached_absorbs reached).1.run ran
    rw [Transfer.taken_of_isIdle idle, idle.2, List.append_nil,
      List.append_nil] at absorbs
    rcases Decoder.stalled_of_run ran going idle written.reverse with
      ⟨nothing, settled⟩ | ⟨full, beyond⟩
    · refine .inl ⟨nothing, ?_⟩
      rw [absorbs.read_of_settled settled, List.reverse_reverse,
        steps.unfinished going]
    · refine .inr ⟨full, ?_⟩
      rw [List.reverse_reverse] at beyond
      rwa [absorbs.read_append]

end StreamCodec.Inflate
