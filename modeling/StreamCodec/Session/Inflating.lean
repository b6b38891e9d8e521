import StreamCodec.Engine.Checked
import StreamCodec.Session.Basic

namespace StreamCodec

structure InflateSession (ι : Type) where
  format : Format
  engine? : Option ι
  finished : Bool
  /-- A reset came after the latest initialization. -/
  wasReset : Bool

namespace InflateSession

variable {ι : Type} [InflateEngine ι]

def new (format : Format) : InflateSession ι :=
  ⟨format, none, false, false⟩

def setUp (session : InflateSession ι) :
    Except CodecError Unit × InflateSession ι :=
  let ready (engine : ι) : InflateSession ι :=
    { session with engine? := some engine, finished := false, wasReset := false }
  match session.engine? with
  | none => (.ok (), ready (InflateEngine.start session.format))
  | some engine =>
      if session.wasReset then (.ok (), ready (Engine.restart session.format engine))
      else (.error (.invalidState .decompressorInitialized), session)

def decompress (session : InflateSession ι) (input : Bytes) (room : Nat) :
    Except CodecError (Decoded input room) × InflateSession ι :=
  match session with
  | ⟨_, _, true, _⟩ => (.error (.invalidState .streamFinished), session)
  | ⟨_, none, false, _⟩ =>
      (.error (.invalidState .decompressorNotInitialized), session)
  | ⟨format, some engine, false, wasReset⟩ =>
      match Engine.inflate engine .none input room with
      | (.error error, engine) =>
          (.error error, ⟨format, some engine, false, wasReset⟩)
      | (.ok step, engine) =>
          let finished := step.status == .streamEnd
          (.ok
            { step.toTransfer with
              needMoreOutput := step.IsIdle && !finished && !input.isEmpty },
            ⟨format, some engine, finished, wasReset⟩)

def reset (session : InflateSession ι) :
    Except CodecError Unit × InflateSession ι :=
  match session.engine? with
  | none => (.error (.invalidState .decompressorNotInitialized), session)
  | some engine =>
      (.ok (),
        { session with
          engine? := some (Engine.restart session.format engine)
          finished := false
          wasReset := true })

instance : Decompressor (InflateSession ι) where
  decompress := decompress
  reset := reset
  isFinished := InflateSession.finished

end InflateSession

end StreamCodec
