import StreamCodec.Proofs.Engine.Inflating
import StreamCodec.Session.Inflating

namespace StreamCodec.InflateSession

variable {ι : Type} [InflateEngine ι] {format : Format} {grammar : Grammar}
  {consumed written input : Bytes} {room : Nat}

/-- The session has decoded this much of its stream, and it is not the end. -/
inductive Midway (format : Format) (consumed written : Bytes) :
    InflateSession ι → Prop
  | of_reached {engine : ι} (wasReset : Bool)
      (reached : InflateEngine.Reached format consumed written engine) :
      Midway format consumed written ⟨format, some engine, false, wasReset⟩

theorem midway_setUp_new (format : Format) :
    ((new format : InflateSession ι).setUp).1 = .ok () ∧
      Midway format [] [] ((new format : InflateSession ι).setUp).2 :=
  ⟨rfl, .of_reached false .start⟩

theorem Midway.not_finished {session : InflateSession ι}
    (midway : session.Midway format consumed written) :
    session.finished = false := by
  cases midway
  rfl

/-- What a call may answer, and where it leaves the session. -/
inductive Decodes (format : Format) (grammar : Grammar)
    (consumed written input : Bytes) (room : Nat) :
    Except CodecError (Decoded input room) × InflateSession ι → Prop
  | fault (words : Option String) (next : InflateSession ι)
      (faulty : (grammar.read (consumed ++ input)).verdict = .faulty) :
      Decodes format grammar consumed written input room
        (.error (.corruptInput (.inflate words)), next)
  | ended (decoded : Decoded input room) {next : InflateSession ι}
      (finished : next.finished = true)
      (isStream : grammar.IsStream (consumed ++ decoded.taken)
        (written ++ decoded.output)) :
      Decodes format grammar consumed written input room (.ok decoded, next)
  | going (decoded : Decoded input room) {next : InflateSession ι}
      (midway : next.Midway format (consumed ++ decoded.taken)
        (written ++ decoded.output))
      (grown : written ++ decoded.output <+:
        (grammar.read (consumed ++ decoded.taken)).content)
      (stalled : decoded.IsIdle →
        input = [] ∧ grammar.read consumed = ⟨written, .unfinished⟩)
      (drained : decoded.rest = [] → decoded.output.length < room →
        grammar.read (consumed ++ input) =
          ⟨written ++ decoded.output, .unfinished⟩) :
      Decodes format grammar consumed written input room (.ok decoded, next)

theorem Midway.decodes {session : InflateSession ι}
    (midway : session.Midway format consumed written)
    (follows : InflateEngine.Follows ι format grammar) (input : Bytes)
    (roomy : 0 < room) (counts : room ≤ Engine.callLimit) :
    Decodes format grammar consumed written input room
      (session.decompress input room) := by
  cases midway with
  | @of_reached engine wasReset reached =>
      simp only [decompress]
      rcases ran : Engine.inflate engine .none input room with ⟨error | step, next⟩
      · obtain ⟨words, failed, rfl⟩ := Engine.run_of_inflate_error ran
        exact .fault words _ (follows.failed reached failed).1
      · have ran := Engine.run_of_inflate_ok ran
        let decoded : Decoded input room :=
          { step.toTransfer with
            needMoreOutput :=
              step.IsIdle && !(step.status == .streamEnd) && !input.isEmpty }
        rcases Decidable.em (step.status = .streamEnd) with ended | going
        · refine .ended decoded ?_ (follows.ended reached ran ended)
          simp only [ended, beq_self_eq_true]
        · have unfinished : (step.status == .streamEnd) = false :=
            beq_false_of_ne going
          refine .going decoded ?_ (follows.written_prefix reached ran) ?_ ?_
          · rw [unfinished]
            exact .of_reached wasReset (reached.call ran going)
          · intro idle
            rcases follows.stalled reached ran going idle with
              spent | ⟨full, _⟩
            · exact spent
            · omega
          · intro usedUp space
            exact follows.drained reached ran going usedUp space counts

end StreamCodec.InflateSession
