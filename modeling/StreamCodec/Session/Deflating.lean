import StreamCodec.Engine.Checked
import StreamCodec.Session.Basic

namespace StreamCodec

inductive DeflateSession.Phase (ε : Type)
  | created
  | active (engine : ε)
  | closed

structure DeflateSession (ε : Type) where
  level : Int
  phase : DeflateSession.Phase ε

namespace DeflateSession

variable {ε : Type} [DeflateEngine ε]

def new (level : Int) : DeflateSession ε := ⟨level, .created⟩

def setUp (session : DeflateSession ε) (format : Format) :
    Except CodecError Unit × DeflateSession ε :=
  match session.phase with
  | .created =>
      match Engine.openDeflate ε session.level format with
      | .ok engine => (.ok (), { session with phase := .active engine })
      | .error error => (.error error, session)
  | _ => (.error (.invalidState .compressorInitialized), session)

def run (session : DeflateSession ε) (operation : String) (flush : Flush)
    (input : Bytes) (room : Nat) :
    Except CodecError (Step input room) × DeflateSession ε :=
  match session with
  | ⟨level, .active engine⟩ =>
      match Engine.deflate engine operation flush input room with
      | (result, engine) => (result, ⟨level, .active engine⟩)
  | ⟨_, .created⟩ => (.error (.invalidState .compressorNotInitialized), session)
  | ⟨_, .closed⟩ => (.error (.invalidState .compressorEnded), session)

def compress (session : DeflateSession ε) (input : Bytes) (room : Nat) :
    Except CodecError (Transfer input room) × DeflateSession ε :=
  match session.run "compress" .none input room with
  | (.error error, session) => (.error error, session)
  | (.ok step, session) =>
      if step.status = .streamEnd then
        (.error (.engineContract .endWithoutFinish), session)
      else (.ok step.toTransfer, session)

/-- A full buffer may hide more, so it asks for a retry. -/
def flush (session : DeflateSession ε) (room : Nat) :
    Except CodecError (Drained room) × DeflateSession ε :=
  if room = 0 then (.error (.invalidState (.emptyOutput "flush")), session)
  else
    match session.run "flush" .sync [] room with
    | (.error error, session) => (.error error, session)
    | (.ok step, session) =>
        if step.status = .streamEnd then
          (.error (.engineContract .endDuringSync), session)
        else
          (.ok
            { output := step.output
              retry := step.output.length == room
              output_le := step.output_le }, session)

def finish (session : DeflateSession ε) (room : Nat) :
    Except CodecError (Drained room) × DeflateSession ε :=
  if room = 0 then (.error (.invalidState (.emptyOutput "end")), session)
  else
    match session.run "end" .finish [] room with
    | (.error error, session) => (.error error, session)
    | (.ok step, session) =>
        let ended := step.status == .streamEnd
        (.ok
          { output := step.output
            retry := !ended
            output_le := step.output_le },
          if ended then { session with phase := .closed } else session)

instance : Compressor (DeflateSession ε) where
  compress := compress
  flush := flush
  finish := finish

end DeflateSession

end StreamCodec
