import StreamCodec.Engine.Checked
import StreamCodec.Proofs.Engine.Grammar

namespace StreamCodec

/-- An engine counts the bytes of a call in words of 32 bits, and looks at no more
than it can count. -/
def Engine.callLimit : Nat := 1 <<< 32 - 1

def Step.effect {input : Bytes} {room : Nat} (step : Step input room) :
    Transfer input room × Bool :=
  (step.toTransfer, step.status == .streamEnd)

namespace InflateEngine

variable {ι : Type} [InflateEngine ι]

/-- Calls on a newly opened engine led here. None of them failed or ended the
stream. -/
inductive Reached (format : Format) : (consumed written : Bytes) → ι → Prop
  | start : Reached format [] [] (start format)
  | call {engine next : ι} {consumed written input : Bytes} {room : Nat}
      {flush : Flush} {step : Step input room}
      (reached : Reached format consumed written engine)
      (ran : run engine flush input room = (.ok step, next))
      (going : step.status ≠ .streamEnd) :
      Reached format (consumed ++ step.taken) (written ++ step.output) next

/-- What an engine writes and when it ends or fails depends on the bytes alone, and
not on how input and room are cut into calls. A flush shows in the status alone, and
not in whether that is the end of the stream. -/
structure Follows (ι : Type) [InflateEngine ι] (format : Format)
    (grammar : Grammar) : Prop where
  effect_eq {engine : ι} {consumed written : Bytes} (flush : Flush) (input : Bytes)
      (room : Nat) :
    Reached format consumed written engine →
      (run engine flush input room).1.map Step.effect =
        (run engine .none input room).1.map Step.effect
  written_prefix {engine next : ι} {consumed written input : Bytes} {room : Nat}
      {step : Step input room} :
    Reached format consumed written engine →
      run engine .none input room = (.ok step, next) →
      written ++ step.output <+:
        (grammar.read (consumed ++ step.taken)).content
  /-- Nothing behind the end is taken. -/
  ended {engine next : ι} {consumed written input : Bytes} {room : Nat}
      {step : Step input room} :
    Reached format consumed written engine →
      run engine .none input room = (.ok step, next) → step.status = .streamEnd →
      grammar.IsStream (consumed ++ step.taken) (written ++ step.output)
  /-- A fault is met behind all content that comes before it. -/
  failed {engine next : ι} {consumed written input : Bytes} {room : Nat}
      {words : Option String} :
    Reached format consumed written engine →
      run engine .none input room = (.error words, next) →
      (grammar.read (consumed ++ input)).verdict = .faulty ∧
        (grammar.read (consumed ++ input)).content.length ≤
          written.length + room
  /-- With room left nothing is held back. -/
  drained {engine next : ι} {consumed written input : Bytes} {room : Nat}
      {step : Step input room} :
    Reached format consumed written engine →
      run engine .none input room = (.ok step, next) → step.status ≠ .streamEnd →
      step.rest = [] → step.output.length < room → room ≤ Engine.callLimit →
      grammar.read (consumed ++ input) = ⟨written ++ step.output, .unfinished⟩
  /-- Only want of input or of room keeps an engine from going on. -/
  stalled {engine next : ι} {consumed written input : Bytes} {room : Nat}
      {step : Step input room} :
    Reached format consumed written engine →
      run engine .none input room = (.ok step, next) → step.status ≠ .streamEnd →
      step.IsIdle →
      (input = [] ∧ grammar.read consumed = ⟨written, .unfinished⟩) ∨
        (room = 0 ∧ (grammar.read (consumed ++ input)).GoesBeyond written)

variable {format : Format} {grammar : Grammar} {engine next : ι} {flush : Flush}
  {consumed written input : Bytes} {room : Nat}

theorem Follows.plain_of_error (follows : Follows ι format grammar)
    (reached : Reached format consumed written engine) {words : Option String}
    (ran : run engine flush input room = (.error words, next)) :
    ∃ after, run engine .none input room = (.error words, after) := by
  have same := follows.effect_eq flush input room reached
  rw [ran] at same
  rcases plainRan : run engine .none input room with ⟨otherWords | plain, after⟩
  · rw [plainRan] at same
    cases same
    exact ⟨after, rfl⟩
  · rw [plainRan] at same
    cases same

theorem Follows.plain_of_ok (follows : Follows ι format grammar)
    (reached : Reached format consumed written engine) {step : Step input room}
    (ran : run engine flush input room = (.ok step, next)) :
    ∃ status after,
      run engine .none input room = (.ok { step with status := status }, after) ∧
      (status = .streamEnd ↔ step.status = .streamEnd) := by
  have same := follows.effect_eq flush input room reached
  rw [ran] at same
  rcases plainRan : run engine .none input room with ⟨otherWords | plain, after⟩
  · rw [plainRan] at same
    cases same
  · rw [plainRan] at same
    simp only [Except.map, Except.ok.injEq, Step.effect, Prod.mk.injEq] at same
    obtain ⟨sameTransfer, sameEnd⟩ := same
    refine ⟨plain.status, after, ?_, ?_⟩
    · rw [sameTransfer]
    · rw [← beq_iff_eq, ← beq_iff_eq (a := step.status), sameEnd]

end InflateEngine

namespace Engine

variable {ι : Type} [InflateEngine ι] {engine next : ι} {flush : Flush}
  {input : Bytes} {room : Nat}

theorem run_of_inflate_ok {step : Step input room}
    (ran : inflate engine flush input room = (.ok step, next)) :
    InflateEngine.run engine flush input room = (.ok step, next) := by
  unfold inflate at ran
  split at ran
  · next outcome =>
      cases ran
      exact outcome
  · cases ran

theorem run_of_inflate_error {error : CodecError}
    (ran : inflate engine flush input room = (.error error, next)) :
    ∃ words, InflateEngine.run engine flush input room = (.error words, next) ∧
      error = .corruptInput (.inflate words) := by
  unfold inflate at ran
  split at ran
  · cases ran
  · next words _ outcome =>
      cases ran
      exact ⟨words, outcome, rfl⟩

end Engine

end StreamCodec
