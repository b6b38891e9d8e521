import StreamCodec.Engine.Basic
import StreamCodec.Error

namespace StreamCodec.Engine

/-! Engines behind the errors of this library. -/

def engineName : String := "zlib"

def openDeflate (ε : Type) [DeflateEngine ε] (level : Int) (format : Format) :
    Except CodecError ε :=
  if inRange : 0 ≤ level ∧ level ≤ 9 then
    .ok (DeflateEngine.start ⟨level.toNat, by omega⟩ format)
  else .error (.backendInit engineName (.levelRejected level))

def deflate [DeflateEngine ε] (engine : ε) (operation : String) (flush : Flush)
    (input : Bytes) (room : Nat) : Except CodecError (Step input room) × ε :=
  match DeflateEngine.run engine flush input room with
  | (.ok step, engine) => (.ok step, engine)
  | (.error words, engine) =>
      (.error (.backend engineName operation (engineWords words)), engine)

def inflate [InflateEngine ι] (engine : ι) (flush : Flush) (input : Bytes)
    (room : Nat) : Except CodecError (Step input room) × ι :=
  match InflateEngine.run engine flush input room with
  | (.ok step, engine) => (.ok step, engine)
  | (.error words, engine) => (.error (.corruptInput (.inflate words)), engine)

/-- Makes an inflate engine ready for the next stream. A rewound engine cannot go
back to gzip framing, so such an engine is started anew. -/
def restart [InflateEngine ι] (format : Format) (engine : ι) : ι :=
  match format with
  | .gzip => InflateEngine.start .gzip
  | .zlib => InflateEngine.rewind true engine
  | .deflate => InflateEngine.rewind false engine

theorem openDeflate_ok [DeflateEngine ε] (level : Fin 10) (format : Format) :
    openDeflate ε level.val format = .ok (DeflateEngine.start level format) := by
  have inRange : (0 : Int) ≤ level.val ∧ (level.val : Int) ≤ 9 := by omega
  simp [openDeflate, inRange]

end StreamCodec.Engine
