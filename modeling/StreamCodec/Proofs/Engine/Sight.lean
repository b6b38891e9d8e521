import StreamCodec.Proofs.Engine.Concluding

namespace StreamCodec

/-! Engines that see no more than so much of the input and of the room of a call. -/

/-- What a call tells its caller, whatever it was given. -/
structure CallReport where
  consumed : Nat
  output : Bytes
  status : Status

def Step.report {input : Bytes} {room : Nat} (step : Step input room) : CallReport :=
  ⟨step.consumed, step.output, step.status⟩

namespace DeflateEngine

variable {ε : Type} [DeflateEngine ε]

def report (engine : ε) (flush : Flush) (input : Bytes) (room : Nat) :
    Except (Option String) CallReport × ε :=
  match run engine flush input room with
  | (answer, next) => (answer.map Step.report, next)

variable {engine next : ε} {flush : Flush} {input : Bytes} {room : Nat}

theorem report_of_run {answer : Except (Option String) (Step input room)}
    (ran : run engine flush input room = (answer, next)) :
    report engine flush input room = (answer.map Step.report, next) := by
  rw [report, ran]

theorem run_of_report {told : CallReport}
    (reported : report engine flush input room = (.ok told, next)) :
    ∃ step, run engine flush input room = (.ok step, next) ∧ step.report = told := by
  unfold report at reported
  split at reported
  · next answer _ ran =>
      cases answer with
      | error words => cases reported
      | ok step =>
          cases reported
          exact ⟨step, ran, rfl⟩

/-- When it is asked to end the stream, it does so once all that it sees is taken,
and it does not see what is behind that. -/
structure Sees (ε : Type) [DeflateEngine ε] (level : Fin 10) (format : Format)
    (limit : Nat) : Prop where
  report_eq (engine : ε) (flush : Flush) (input : Bytes) (room : Nat) :
    report engine flush input room =
      report engine flush (input.take limit) (min room limit)
  ended {engine next : ε} {content rest given : Bytes} {room : Nat}
      {step : Step rest room} :
    Concluding level format content rest given engine →
      run engine .finish rest room = (.ok step, next) →
      step.status = .streamEnd → step.taken = rest.take limit

theorem Sees.limit_le {level : Fin 10} {format : Format} {limit : Nat}
    (sees : Sees ε level format limit) {content rest given : Bytes}
    {step : Step rest room}
    (concluding : Concluding level format content rest given engine)
    (ran : run engine .finish rest room = (.ok step, next))
    (ended : step.status = .streamEnd) (more : step.rest ≠ []) :
    limit ≤ step.taken.length := by
  have lengths := congrArg List.length step.taken_append_rest
  have left := List.length_pos_iff.2 more
  rw [List.length_append] at lengths
  rw [sees.ended concluding ran ended, List.length_take] at lengths ⊢
  omega

end DeflateEngine

/-- Sees no more than so much of what its calls are given. It stalls where the engine
inside ends the stream with a part of that left. -/
structure Limited (limit : Nat) (ε : Type) where
  inner : ε

namespace Limited

variable {limit : Nat} {ε : Type}

def widen {input : Bytes} {room : Nat}
    (step : Step (input.take limit) (min room limit)) : Step input room where
  consumed := step.consumed
  output := step.output
  consumed_le := Nat.le_trans step.consumed_le (List.length_take_le' limit input)
  output_le := Nat.le_trans step.output_le (Nat.min_le_left room limit)
  status := step.status

variable [DeflateEngine ε]

instance : DeflateEngine (Limited limit ε) where
  start level format := ⟨DeflateEngine.start level format⟩
  run limited flush input room :=
    match DeflateEngine.run limited.inner flush (input.take limit) (min room limit) with
    | (.error words, inner) => (.error words, ⟨inner⟩)
    | (.ok step, inner) =>
        if step.status = .streamEnd ∧ step.rest ≠ [] then
          (.ok { Transfer.idle input room with status := .stalled }, limited)
        else (.ok (widen step), ⟨inner⟩)
  reset limited := ⟨DeflateEngine.reset limited.inner⟩

variable {limited next : Limited limit ε} {flush : Flush} {input : Bytes} {room : Nat}

inductive Answers (limited : Limited limit ε) (flush : Flush) (input : Bytes)
    (room : Nat) : Step input room → Limited limit ε → Prop
  | stalls {step : Step input room} (idle : step.IsIdle)
      (going : step.status ≠ .streamEnd) : Answers limited flush input room step limited
  | passes {step : Step (input.take limit) (min room limit)} {inner : ε}
      (ran : DeflateEngine.run limited.inner flush (input.take limit)
        (min room limit) = (.ok step, inner))
      (usedUp : step.status = .streamEnd → step.rest = []) :
      Answers limited flush input room (widen step) ⟨inner⟩

private theorem answers_run {step : Step input room}
    (ran : DeflateEngine.run limited flush input room = (.ok step, next)) :
    Answers limited flush input room step next := by
  simp only [DeflateEngine.run] at ran
  split at ran
  · cases ran
  · next innerStep inner innerRan =>
      split at ran
      · cases ran
        exact .stalls (Transfer.isIdle_idle input room) Status.noConfusion
      · next allowed =>
          cases ran
          apply Answers.passes innerRan
          intro ended
          exact Decidable.byContradiction fun more => allowed ⟨ended, more⟩

private theorem taken_widen (step : Step (input.take limit) (min room limit)) :
    (widen step).taken = step.taken := by
  have within := step.consumed_le
  rw [List.length_take] at within
  have le : step.consumed ≤ limit := Nat.le_trans within (Nat.min_le_left _ _)
  rw [Transfer.taken, Transfer.taken, List.take_take, Nat.min_eq_left le]
  rfl

private theorem report_eq (limited : Limited limit ε) (flush : Flush) (input : Bytes)
    (room : Nat) :
    DeflateEngine.report limited flush input room =
      match DeflateEngine.report limited.inner flush (input.take limit)
        (min room limit) with
      | (.error words, inner) => (.error words, ⟨inner⟩)
      | (.ok told, inner) =>
          if told.status = .streamEnd ∧ (input.take limit).drop told.consumed ≠ [] then
            (.ok ⟨0, [], .stalled⟩, limited)
          else (.ok told, ⟨inner⟩) := by
  simp only [DeflateEngine.report, DeflateEngine.run]
  split
  · next ran =>
      rw [ran]
      rfl
  · next step inner ran =>
      rw [ran]
      by_cases short : step.status = .streamEnd ∧ step.rest ≠ []
      · rw [if_pos short]
        exact (if_pos short).symm
      · rw [if_neg short]
        exact (if_neg short).symm

theorem report_of_inner {told : CallReport} {inner : ε}
    (reported : DeflateEngine.report limited.inner flush (input.take limit)
      (min room limit) = (.ok told, inner))
    (usedUp : (input.take limit).drop told.consumed = []) :
    DeflateEngine.report limited flush input room = (.ok told, ⟨inner⟩) := by
  rw [report_eq, reported]
  exact if_neg fun short => short.2 usedUp

end Limited

namespace DeflateEngine

variable {ε : Type} [DeflateEngine ε] {level : Fin 10} {format : Format}

theorem sees_limited (limit : Nat) : Sees (Limited limit ε) level format limit where
  report_eq limited flush input room := by
    rw [limited.report_eq, limited.report_eq, List.take_take, Nat.min_self,
      Nat.min_assoc, Nat.min_self]
  ended concluding ran ended := by
    cases Limited.answers_run ran with
    | stalls _ going => exact absurd ended going
    | passes innerRan usedUp =>
        rw [Limited.taken_widen]
        exact Transfer.taken_eq_of_rest (usedUp ended)

variable {limit : Nat} {limited : Limited limit ε} {taken given : Bytes}

private theorem Fed.inner (fed : Fed level format taken given limited) :
    Fed level format taken given limited.inner := by
  induction fed with
  | start => exact .start
  | call fed keeps ran induction =>
      cases Limited.answers_run ran with
      | stalls idle => simpa [Transfer.taken_of_isIdle idle, idle.2] using induction
      | passes innerRan =>
          rw [Limited.taken_widen]
          exact induction.call keeps innerRan

private theorem Ending.inner (ending : Ending level format taken given limited) :
    Ending level format taken given limited.inner := by
  induction ending with
  | of_fed fed => exact .of_fed fed.inner
  | call ending ran going induction =>
      cases Limited.answers_run ran with
      | stalls idle => simpa [Transfer.taken_of_isIdle idle, idle.2] using induction
      | passes innerRan =>
          rw [Limited.taken_widen]
          exact induction.call innerRan going

theorem streams_limited {grammar : Grammar}
    (streams : Streams ε level format grammar) (limit : Nat) :
    Streams (Limited limit ε) level format grammar where
  ended ending ran ended := by
    cases Limited.answers_run ran with
    | stalls _ going => exact absurd ended going
    | passes innerRan =>
        rw [Limited.taken_widen]
        exact streams.ended ending.inner innerRan ended

end DeflateEngine

end StreamCodec
