import Mathlib.Algebra.Order.Floor.Div
import Mathlib.GroupTheory.GroupAction.Ring
import StreamCodec.Bound
import StreamCodec.Proofs.Engine.Deflating

namespace StreamCodec.DeflateEngine

/-! What is asked of an engine that gets all of the content at once. -/

variable {ε : Type} [DeflateEngine ε] {level : Fin 10} {format : Format}
  {grammar : Grammar} {content : Bytes}

/-- A newly opened engine was only asked to end the stream, each time with what the
call before left of the content, and has not ended it yet. -/
inductive Concluding (level : Fin 10) (format : Format) (content : Bytes) :
    (rest given : Bytes) → ε → Prop
  | start : Concluding level format content content [] (start level format)
  | call {engine next : ε} {rest given : Bytes} {room : Nat} {step : Step rest room}
      (concluding : Concluding level format content rest given engine)
      (ran : run engine .finish rest room = (.ok step, next))
      (going : step.status ≠ .streamEnd) :
      Concluding level format content step.rest (given ++ step.output) next

theorem Concluding.ending {engine : ε} {rest given : Bytes}
    (concluding : Concluding level format content rest given engine) :
    ∃ taken, Ending level format taken given engine ∧ taken ++ rest = content := by
  induction concluding with
  | start => exact ⟨[], .of_fed .start, rfl⟩
  | @call _ _ _ _ _ step concluding ran going induction =>
      obtain ⟨taken, ending, contentEq⟩ := induction
      refine ⟨_, ending.call ran going, ?_⟩
      rw [List.append_assoc, Transfer.taken_append_rest, contentEq]

/-- This content is taken to its last byte before the stream ends. An engine that
cannot count so many bytes may end it earlier. -/
structure Concludes (ε : Type) [DeflateEngine ε] (level : Fin 10) (format : Format)
    (grammar : Grammar) (content : Bytes) : Prop
    extends Streams ε level format grammar where
  takesAll {engine next : ε} {rest given : Bytes} {room : Nat} {step : Step rest room} :
    Concluding level format content rest given engine →
      run engine .finish rest room = (.ok step, next) →
      step.status = .streamEnd → step.rest = []

/-- What the calls gave, and what is left of the content when one of them ends the
stream. -/
inductive Completed (ε : Type) [DeflateEngine ε] (level : Fin 10) (format : Format)
    (content : Bytes) : (packed rest : Bytes) → Prop
  | of_ended {engine next : ε} {rest given : Bytes} {room : Nat} {step : Step rest room}
      (concluding : Concluding level format content rest given engine)
      (ran : run engine .finish rest room = (.ok step, next))
      (ended : step.status = .streamEnd) :
      Completed ε level format content (given ++ step.output) step.rest

theorem Streams.isStream (streams : Streams ε level format grammar)
    {packed rest : Bytes} (completed : Completed ε level format content packed rest) :
    ∃ taken, taken ++ rest = content ∧ grammar.IsStream packed taken := by
  obtain ⟨concluding, ran, ended⟩ := completed
  obtain ⟨taken, ending, contentEq⟩ := concluding.ending
  refine ⟨_, ?_, streams.ended ending ran ended⟩
  rw [List.append_assoc, Transfer.taken_append_rest, contentEq]

theorem Concludes.isStream (concludes : Concludes ε level format grammar content)
    {packed rest : Bytes} (completed : Completed ε level format content packed rest) :
    grammar.IsStream packed content := by
  obtain ⟨taken, contentEq, isStream⟩ := concludes.toStreams.isStream completed
  obtain ⟨concluding, ran, ended⟩ := completed
  rw [concludes.takesAll concluding ran ended, List.append_nil] at contentEq
  rwa [← contentEq]

def streamBound (format : Format) (length : Nat) : Nat :=
  length + length ⌈/⌉ 8 + length ⌈/⌉ 64 + 5 + format.wrapperLength + boundSlack

theorem streamBound_eq (format : Format) (length : Nat) :
    streamBound format length =
      length + (length + 7) / 8 + (length + 63) / 64 + 5 + format.wrapperLength +
        boundSlack := rfl

theorem streamBound_mono (format : Format) : Monotone (streamBound format) := by
  intro first second le
  simp only [streamBound_eq]
  omega

/-- The whole stream of this content keeps within the bound. -/
structure Compact (ε : Type) [DeflateEngine ε] (level : Fin 10) (format : Format)
    (content : Bytes) : Prop where
  succeeds {engine : ε} {rest given : Bytes} (room : Nat) :
    Concluding level format content rest given engine →
      ∃ step next, run engine .finish rest room = (.ok step, next)
  /-- Only want of room keeps an engine from ending the stream. -/
  stuck {engine next : ε} {rest given : Bytes} {room : Nat} {step : Step rest room} :
    Concluding level format content rest given engine →
      run engine .finish rest room = (.ok step, next) →
      step.status ≠ .streamEnd → step.IsIdle → room = 0
  ended_le {packed rest : Bytes} :
    Completed ε level format content packed rest →
      packed.length ≤ streamBound format content.length
  going_lt {engine : ε} {rest given : Bytes} :
    Concluding level format content rest given engine →
      given.length < streamBound format content.length

end StreamCodec.DeflateEngine
