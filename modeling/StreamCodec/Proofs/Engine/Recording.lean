import StreamCodec.Codec.OneShot
import StreamCodec.Proofs.Engine.Deflating

namespace StreamCodec

/-! An engine that keeps a record of its calls and is otherwise the engine it was. -/

/-- A call, with what it was given and what came of it. -/
structure Record where
  input : Bytes
  room : Nat
  answer : Except (Option String) (Step input room)

def Record.taken (record : Record) : Bytes :=
  match record.answer with
  | .ok step => step.taken
  | .error _ => []

def takenBy (records : List Record) : Bytes :=
  records.flatMap Record.taken

structure Recorded (ε : Type) where
  engine : ε
  records : List Record

namespace Recorded

variable {ε : Type}

def remember (recorded : Recorded ε) (engine : ε) (record : Record) : Recorded ε :=
  ⟨engine, recorded.records ++ [record]⟩

variable [DeflateEngine ε]

instance : DeflateEngine (Recorded ε) where
  start level format := ⟨DeflateEngine.start level format, []⟩
  run recorded flush input room :=
    match DeflateEngine.run recorded.engine flush input room with
    | (answer, engine) => (answer, recorded.remember engine ⟨input, room, answer⟩)
  reset recorded := { recorded with engine := DeflateEngine.reset recorded.engine }

variable {recorded next : Recorded ε} {flush : Flush} {input : Bytes} {room : Nat}

theorem run_eq {answer : Except (Option String) (Step input room)}
    (ran : DeflateEngine.run recorded flush input room = (answer, next)) :
    DeflateEngine.run recorded.engine flush input room = (answer, next.engine) ∧
      next.records = recorded.records ++ [⟨input, room, answer⟩] := by
  cases ran
  exact ⟨rfl, rfl⟩

theorem run_of_engine (recorded : Recorded ε)
    {answer : Except (Option String) (Step input room)} {engine : ε}
    (ran : DeflateEngine.run recorded.engine flush input room = (answer, engine)) :
    DeflateEngine.run recorded flush input room =
      (answer, recorded.remember engine ⟨input, room, answer⟩) := by
  change (match DeflateEngine.run recorded.engine flush input room with
    | (answer, engine) => (answer, recorded.remember engine ⟨input, room, answer⟩)) = _
  rw [ran]

theorem takenBy_of_run {step : Step input room}
    (ran : DeflateEngine.run recorded flush input room = (.ok step, next)) :
    takenBy next.records = takenBy recorded.records ++ step.taken := by
  rw [takenBy, (run_eq ran).2, List.flatMap_append, List.flatMap_singleton]
  rfl

private theorem deflate_eq {operation : String}
    {answer : Except CodecError (Step input room)}
    (ran : Engine.deflate recorded operation flush input room = (answer, next)) :
    Engine.deflate recorded.engine operation flush input room =
      (answer, next.engine) := by
  unfold Engine.deflate at ran ⊢
  split at ran
  · next outcome =>
      cases ran
      rw [(run_eq outcome).1]
  · next outcome =>
      cases ran
      rw [(run_eq outcome).1]

end Recorded

namespace Recorded

variable {ι : Type} [InflateEngine ι]

instance : InflateEngine (Recorded ι) where
  start format := ⟨InflateEngine.start format, []⟩
  run recorded flush input room :=
    match InflateEngine.run recorded.engine flush input room with
    | (answer, engine) => (answer, recorded.remember engine ⟨input, room, answer⟩)
  rewind zlibFramed recorded :=
    { recorded with engine := InflateEngine.rewind zlibFramed recorded.engine }

variable {recorded next : Recorded ι} {flush : Flush} {input : Bytes} {room : Nat}

theorem inflateRun_eq {answer : Except (Option String) (Step input room)}
    (ran : InflateEngine.run recorded flush input room = (answer, next)) :
    InflateEngine.run recorded.engine flush input room = (answer, next.engine) ∧
      next.records = recorded.records ++ [⟨input, room, answer⟩] := by
  cases ran
  exact ⟨rfl, rfl⟩

private theorem inflate_eq {answer : Except CodecError (Step input room)}
    (ran : Engine.inflate recorded flush input room = (answer, next)) :
    Engine.inflate recorded.engine flush input room = (answer, next.engine) := by
  unfold Engine.inflate at ran ⊢
  split at ran
  · next outcome =>
      cases ran
      rw [(inflateRun_eq outcome).1]
  · next outcome =>
      cases ran
      rw [(inflateRun_eq outcome).1]

end Recorded

namespace OneShot

variable {ε : Type} [DeflateEngine ε]

theorem deflateFrom_recorded (tooSmall : CodecError) (recorded : Recorded ε)
    (rest : Bytes) (room : Nat) (written : Bytes) :
    deflateFrom tooSmall recorded.engine rest room written =
      ((deflateFrom tooSmall recorded rest room written).1,
        (deflateFrom tooSmall recorded rest room written).2.engine) := by
  fun_induction deflateFrom tooSmall recorded rest room written with
  | case1 recorded rest room written error next ran =>
      rw [deflateFrom, Recorded.deflate_eq ran]
  | case2 recorded rest room written step next ran written' ended =>
      rw [deflateFrom, Recorded.deflate_eq ran]
      exact if_pos ended
  | case3 recorded rest room written step next ran going idle =>
      rw [deflateFrom, Recorded.deflate_eq ran]
      simp only [if_neg going, dif_pos idle]
  | case4 recorded rest room written step next ran written' going busy induction =>
      rw [deflateFrom, Recorded.deflate_eq ran]
      simp only [if_neg going, dif_neg busy]
      exact induction

theorem deflate_recorded (recorded : Recorded ε) (input : Bytes) (room : Nat) :
    deflate recorded.engine input room =
      ((deflate recorded input room).1, (deflate recorded input room).2.engine) :=
  deflateFrom_recorded _ recorded input room []

variable {ι : Type} [InflateEngine ι]

theorem inflateFrom_recorded (length capacity : Nat) (recorded : Recorded ι)
    (rest : Bytes) (room : Nat) (written : Bytes) :
    inflateFrom length capacity recorded.engine rest room written =
      ((inflateFrom length capacity recorded rest room written).1,
        (inflateFrom length capacity recorded rest room written).2.engine) := by
  fun_induction inflateFrom length capacity recorded rest room written with
  | case1 recorded rest room written error next ran =>
      rw [inflateFrom, Recorded.inflate_eq ran]
  | case2 recorded rest room written step next ran written' ended =>
      rw [inflateFrom, Recorded.inflate_eq ran]
      exact if_pos ended
  | case3 recorded rest written step next ran going idle =>
      rw [inflateFrom, Recorded.inflate_eq ran]
      simp only [if_neg going, dif_pos idle, if_true]
  | case4 recorded rest room written step next ran going idle left =>
      rw [inflateFrom, Recorded.inflate_eq ran]
      simp only [if_neg going, dif_pos idle, if_neg left]
  | case5 recorded rest room written step next ran written' going busy induction =>
      rw [inflateFrom, Recorded.inflate_eq ran]
      simp only [if_neg going, dif_neg busy]
      exact induction

theorem inflate_recorded (recorded : Recorded ι) (input : Bytes) (room : Nat) :
    inflate recorded.engine input room =
      ((inflate recorded input room).1, (inflate recorded input room).2.engine) :=
  inflateFrom_recorded _ _ recorded input room []

end OneShot

end StreamCodec
