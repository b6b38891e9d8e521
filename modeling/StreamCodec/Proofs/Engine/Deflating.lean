import StreamCodec.Engine.Checked
import StreamCodec.Proofs.Engine.Grammar

namespace StreamCodec

namespace DeflateEngine

variable {ε : Type} [DeflateEngine ε] {level : Fin 10} {format : Format}
  {grammar : Grammar} {engine next : ε} {taken given input : Bytes} {room : Nat}

/-- Calls that keep the stream open led here from a newly opened engine. -/
inductive Fed (level : Fin 10) (format : Format) : (taken given : Bytes) → ε → Prop
  | start : Fed level format [] [] (start level format)
  | call {engine next : ε} {taken given input : Bytes} {room : Nat}
      {flush : Flush} {step : Step input room}
      (fed : Fed level format taken given engine) (keeps : flush ≠ .finish)
      (ran : run engine flush input room = (.ok step, next)) :
      Fed level format (taken ++ step.taken) (given ++ step.output) next

/-- Then came calls to end the stream, and it has not ended yet. -/
inductive Ending (level : Fin 10) (format : Format) :
    (taken given : Bytes) → ε → Prop
  | of_fed {engine : ε} {taken given : Bytes}
      (fed : Fed level format taken given engine) :
      Ending level format taken given engine
  | call {engine next : ε} {taken given input : Bytes} {room : Nat}
      {step : Step input room} (ending : Ending level format taken given engine)
      (ran : run engine .finish input room = (.ok step, next))
      (going : step.status ≠ .streamEnd) :
      Ending level format (taken ++ step.taken) (given ++ step.output) next

/-- What an engine may take and give from here on, when it is fed and then asked to
end the stream. No call was asked for a marker. -/
inductive MayGive : ε → (taken given : Bytes) → Prop
  | nothing (engine : ε) : MayGive engine [] []
  | feed {engine next : ε} {taken given input : Bytes} {room : Nat}
      {step : Step input room}
      (ran : run engine .none input room = (.ok step, next))
      (later : MayGive next taken given) :
      MayGive engine (step.taken ++ taken) (step.output ++ given)
  | finish {engine next : ε} {taken given : Bytes} {room : Nat}
      {step : Step [] room}
      (ran : run engine .finish [] room = (.ok step, next))
      (going : step.status ≠ .streamEnd) (later : MayGive next taken given) :
      MayGive engine (step.taken ++ taken) (step.output ++ given)

/-- As long as it takes no more than so much, it gives no more than so much. -/
def Bounded (engine : ε) (most bound : Nat) : Prop :=
  ∀ taken given, MayGive engine taken given → taken.length ≤ most →
    given.length ≤ bound

/-- What an engine gives until the stream ends is one stream of what it took. -/
structure Streams (ε : Type) [DeflateEngine ε] (level : Fin 10) (format : Format)
    (grammar : Grammar) : Prop where
  ended {engine next : ε} {taken given input : Bytes} {room : Nat}
      {step : Step input room} :
    Ending level format taken given engine →
      run engine .finish input room = (.ok step, next) →
      step.status = .streamEnd →
      grammar.IsStream (given ++ step.output) (taken ++ step.taken)

/-- An engine takes what it is fed, and when it is asked to end the stream and given
nothing more, the end comes. -/
structure Writes (ε : Type) [DeflateEngine ε] (level : Fin 10) (format : Format)
    (grammar : Grammar) : Prop extends Streams ε level format grammar where
  /-- Only a call to end the stream ends it. -/
  feeds {engine : ε} {taken given : Bytes} (flush : Flush) (input : Bytes)
      (room : Nat) :
    Fed level format taken given engine → flush ≠ .finish →
      ∃ step next, run engine flush input room = (.ok step, next) ∧
        step.status ≠ .streamEnd
  moves {engine next : ε} {taken given input : Bytes} {room : Nat}
      {step : Step input room} :
    Fed level format taken given engine →
      run engine .none input room = (.ok step, next) → input ≠ [] → 0 < room →
      ¬step.IsIdle
  finishes {engine : ε} {taken given : Bytes} (room : Nat) :
    Ending level format taken given engine → 0 < room →
      ∃ step next, run engine .finish [] room = (.ok step, next) ∧
        (step.status = .streamEnd ∨ step.output ≠ [])
  bounded {engine : ε} {taken given : Bytes} (most : Nat) :
    Fed level format taken given engine → ∃ bound, Bounded engine most bound

theorem Bounded.feed {most bound : Nat} {step : Step input room}
    (bounded : Bounded engine most bound)
    (ran : run engine .none input room = (.ok step, next))
    (within : step.taken.length ≤ most) :
    step.output.length ≤ bound ∧
      Bounded next (most - step.taken.length) (bound - step.output.length) := by
  have further {taken given : Bytes} (later : MayGive next taken given)
      (less : taken.length ≤ most - step.taken.length) :
      step.output.length + given.length ≤ bound := by
    have bound := bounded _ _ (.feed ran later) (by
      rw [List.length_append]
      omega)
    rwa [List.length_append] at bound
  refine ⟨further (.nothing next) (Nat.zero_le _), fun taken given later less => ?_⟩
  have bound := further later less
  omega

theorem Bounded.finish {most bound : Nat} {step : Step [] room}
    (bounded : Bounded engine most bound)
    (ran : run engine .finish [] room = (.ok step, next))
    (going : step.status ≠ .streamEnd) :
    step.output.length ≤ bound ∧
      Bounded next most (bound - step.output.length) := by
  have further {taken given : Bytes} (later : MayGive next taken given)
      (less : taken.length ≤ most) :
      step.output.length + given.length ≤ bound := by
    have bound := bounded _ _ (.finish ran going later) (by
      rwa [Transfer.taken_of_nil, List.nil_append])
    rwa [List.length_append] at bound
  refine ⟨further (.nothing next) (Nat.zero_le _), fun taken given later less => ?_⟩
  have bound := further later less
  omega

end DeflateEngine

namespace Engine

variable {ε : Type} [DeflateEngine ε] {engine next : ε} {flush : Flush}
  {input : Bytes} {room : Nat}

theorem deflate_of_run {step : Step input room} (operation : String)
    (ran : DeflateEngine.run engine flush input room = (.ok step, next)) :
    deflate engine operation flush input room = (.ok step, next) := by
  simp only [deflate, ran]

theorem run_of_deflate_ok {operation : String} {step : Step input room}
    (ran : deflate engine operation flush input room = (.ok step, next)) :
    DeflateEngine.run engine flush input room = (.ok step, next) := by
  unfold deflate at ran
  split at ran
  · next outcome =>
      cases ran
      exact outcome
  · cases ran

theorem run_of_deflate_error {operation : String} {error : CodecError}
    (ran : deflate engine operation flush input room = (.error error, next)) :
    ∃ words, DeflateEngine.run engine flush input room = (.error words, next) ∧
      error = .backend engineName operation (engineWords words) := by
  unfold deflate at ran
  split at ran
  · cases ran
  · next words _ outcome =>
      cases ran
      exact ⟨words, outcome, rfl⟩

end Engine

end StreamCodec
