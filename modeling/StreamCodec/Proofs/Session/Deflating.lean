import StreamCodec.Proofs.Engine.Deflating
import StreamCodec.Session.Deflating

namespace StreamCodec.DeflateSession

open DeflateEngine (Fed Ending Writes)

variable {ε : Type} [DeflateEngine ε] {level : Fin 10} {format : Format}
  {grammar : Grammar} {taken given : Bytes} {session : DeflateSession ε}

/-- The session has compressed this much of its stream into that much. -/
inductive Midway (level : Fin 10) (format : Format) (taken given : Bytes) :
    DeflateSession ε → Prop
  | of_fed {engine : ε} (fed : Fed level format taken given engine) :
      Midway level format taken given ⟨level.val, .active engine⟩

/-- The session is ending its stream. -/
inductive Closing (level : Fin 10) (format : Format) (taken given : Bytes) :
    DeflateSession ε → Prop
  | of_ending {engine : ε} (ending : Ending level format taken given engine) :
      Closing level format taken given ⟨level.val, .active engine⟩

def Bounded (session : DeflateSession ε) (most bound : Nat) : Prop :=
  ∀ engine, session.phase = .active engine →
    DeflateEngine.Bounded engine most bound

private theorem setUp_new (level : Fin 10) (format : Format) :
    (new level.val : DeflateSession ε).setUp format =
      (.ok (), ⟨level.val, .active (DeflateEngine.start level format)⟩) := by
  simp only [new, setUp, Engine.openDeflate_ok]

theorem midway_setUp_new (level : Fin 10) (format : Format) :
    ((new level.val : DeflateSession ε).setUp format).2.Midway level format [] [] := by
  rw [setUp_new]
  exact .of_fed .start

theorem Midway.closing (midway : session.Midway level format taken given) :
    session.Closing level format taken given := by
  cases midway with
  | of_fed fed => exact .of_ending (.of_fed fed)

theorem Midway.bounded (midway : session.Midway level format taken given)
    (writes : Writes ε level format grammar) (most : Nat) :
    ∃ bound, session.Bounded most bound := by
  cases midway with
  | of_fed fed =>
      obtain ⟨bound, bounded⟩ := writes.bounded most fed
      refine ⟨bound, fun engine active => ?_⟩
      cases active
      exact bounded

theorem Midway.compress (midway : session.Midway level format taken given)
    (writes : Writes ε level format grammar) (input : Bytes) (room : Nat) :
    ∃ transfer next, session.compress input room = (.ok transfer, next) ∧
      next.Midway level format (taken ++ transfer.taken)
        (given ++ transfer.output) ∧
      (input ≠ [] → 0 < room → ¬transfer.IsIdle) ∧
      ∀ most bound, session.Bounded most bound →
        transfer.taken.length ≤ most →
          transfer.output.length ≤ bound ∧
            next.Bounded (most - transfer.taken.length)
              (bound - transfer.output.length) := by
  cases midway with
  | @of_fed engine fed =>
      obtain ⟨step, next, ran, staysOpen⟩ :=
        writes.feeds .none input room fed Flush.noConfusion
      have compressed : DeflateSession.compress ⟨level.val, .active engine⟩ input
          room = (.ok step.toTransfer, ⟨level.val, .active next⟩) := by
        simp only [DeflateSession.compress, run, Engine.deflate_of_run _ ran,
          if_neg staysOpen]
      refine ⟨_, _, compressed, .of_fed (fed.call Flush.noConfusion ran),
        writes.moves fed ran, fun most bound bounded within => ?_⟩
      obtain ⟨fits, onward⟩ := (bounded engine rfl).feed ran within
      refine ⟨fits, fun other active => ?_⟩
      cases active
      exact onward

theorem flush_of_run {level : Int} {engine next : ε} {room : Nat}
    {step : Step [] room} (roomy : 0 < room)
    (ran : DeflateEngine.run engine .sync [] room = (.ok step, next))
    (staysOpen : step.status ≠ .streamEnd) :
    DeflateSession.flush ⟨level, .active engine⟩ room =
      (.ok ⟨step.output, step.output.length == room, step.output_le⟩,
        ⟨level, .active next⟩) := by
  simp only [DeflateSession.flush, if_neg (Nat.ne_of_gt roomy), run,
    Engine.deflate_of_run _ ran, if_neg staysOpen]

theorem Midway.flush (midway : session.Midway level format taken given)
    (writes : Writes ε level format grammar) {room : Nat} (roomy : 0 < room) :
    ∃ drained next, session.flush room = (.ok drained, next) ∧
      next.Midway level format taken (given ++ drained.output) := by
  cases midway with
  | @of_fed engine fed =>
      obtain ⟨step, next, ran, staysOpen⟩ :=
        writes.feeds .sync [] room fed Flush.noConfusion
      refine ⟨_, _, flush_of_run roomy ran staysOpen, .of_fed ?_⟩
      have later := fed.call Flush.noConfusion ran
      rwa [Transfer.taken_of_nil, List.append_nil] at later

theorem Closing.finish (closing : session.Closing level format taken given)
    (writes : Writes ε level format grammar) {room : Nat} (roomy : 0 < room) :
    ∃ drained next, session.finish room = (.ok drained, next) ∧
      (drained.retry = false ∧ next.phase = .closed ∧
          grammar.IsStream (given ++ drained.output) taken ∨
        drained.retry = true ∧ drained.output ≠ [] ∧
          next.Closing level format taken (given ++ drained.output) ∧
          ∀ most bound, session.Bounded most bound →
            drained.output.length ≤ bound ∧
              next.Bounded most (bound - drained.output.length)) := by
  cases closing with
  | @of_ending engine ending =>
      obtain ⟨step, next, ran, moves⟩ := writes.finishes room ending roomy
      have noneTaken := Transfer.taken_of_nil step.toTransfer
      simp only [DeflateSession.finish, if_neg (Nat.ne_of_gt roomy), run,
        Engine.deflate_of_run _ ran]
      rcases Decidable.em (step.status = .streamEnd) with ended | going
      · have isStream := writes.ended ending ran ended
        rw [noneTaken, List.append_nil] at isStream
        refine ⟨_, _, rfl, .inl ⟨?_, ?_, isStream⟩⟩
        · simp [ended]
        · simp [ended]
      · have goesOn : (step.status == .streamEnd) = false := beq_false_of_ne going
        have later := ending.call ran going
        rw [noneTaken, List.append_nil] at later
        simp only [goesOn, Bool.false_eq_true, if_false, Bool.not_false]
        refine ⟨_, _, rfl, .inr ⟨rfl, moves.resolve_left going,
          .of_ending later, fun most bound bounded => ?_⟩⟩
        obtain ⟨fits, onward⟩ := (bounded engine rfl).finish ran going
        refine ⟨fits, fun other active => ?_⟩
        cases active
        exact onward

end StreamCodec.DeflateSession
