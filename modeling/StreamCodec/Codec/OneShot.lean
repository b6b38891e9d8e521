import StreamCodec.Engine.Checked

namespace StreamCodec.OneShot

/-! A whole stream in one call. An engine may take several steps for it, each on
what the step before left over of input and room. -/

def codecName : String := "gzip"

variable {ε ι : Type}

def deflateFrom [DeflateEngine ε] (tooSmall : CodecError) (engine : ε)
    (rest : Bytes) (room : Nat) (written : Bytes) :
    Except CodecError Bytes × ε :=
  match Engine.deflate engine "deflate" .finish rest room with
  | (.error error, engine) => (.error error, engine)
  | (.ok step, engine) =>
      let written := written ++ step.output
      if step.status = .streamEnd then (.ok written, engine)
      else if _ : step.IsIdle then (.error tooSmall, engine)
      else deflateFrom tooSmall engine step.rest step.roomLeft written
termination_by rest.length + room
decreasing_by exact step.shrinks ‹_›

/-- Compresses the whole input. An engine that can go no further has too little
room. -/
def deflate [DeflateEngine ε] (engine : ε) (input : Bytes) (room : Nat) :
    Except CodecError Bytes × ε :=
  deflateFrom (.bufferTooSmall codecName input.length room) engine input room []

def inflateFrom [InflateEngine ι] (length capacity : Nat) (engine : ι)
    (rest : Bytes) (room : Nat) (written : Bytes) :
    Except CodecError Bytes × ι :=
  match Engine.inflate engine .finish rest room with
  | (.error error, engine) => (.error error, engine)
  | (.ok step, engine) =>
      let written := written ++ step.output
      if step.status = .streamEnd then (.ok written, engine)
      else if _ : step.IsIdle then
        if room = 0 then
          (.error (.bufferTooSmall codecName length capacity), engine)
        else
          (.error (.corruptInput (.truncated (length - rest.length) length)),
            engine)
      else inflateFrom length capacity engine step.rest step.roomLeft written
termination_by rest.length + room
decreasing_by exact step.shrinks ‹_›

/-- Decompresses a whole stream. An engine that can go no further has too little
room if all of it is used, and else too little input. -/
def inflate [InflateEngine ι] (engine : ι) (input : Bytes) (room : Nat) :
    Except CodecError Bytes × ι :=
  inflateFrom input.length room engine input room []

end StreamCodec.OneShot
