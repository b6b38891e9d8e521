import StreamCodec.Deflate.Encoder
import StreamCodec.Engine.Checked
import StreamCodec.Inflate.Engine

namespace StreamCodec

/-! An engine is known by its answers alone. What is renewed has to answer every
sequence of calls as a newly opened engine does. -/

structure Engine.Call where
  flush : Flush
  input : Bytes
  room : Nat

namespace DeflateEngine

open Engine (Call)

variable {ε : Type} [DeflateEngine ε]

def after (engine : ε) : List Call → ε
  | [] => engine
  | call :: calls => after (run engine call.flush call.input call.room).2 calls

/-- No calls tell the engines apart. -/
def Alike (first second : ε) : Prop :=
  ∀ (calls : List Call) (flush : Flush) (input : Bytes) (room : Nat),
    (run (after first calls) flush input room).1 =
      (run (after second calls) flush input room).1

/-- The engine was opened with this level and this format, whatever was done with
it since. -/
inductive Opened (level : Fin 10) (format : Format) : ε → Prop
  | start : Opened level format (start level format)
  | run (opened : Opened level format engine) (flush : Flush) (input : Bytes)
      (room : Nat) : Opened level format (run engine flush input room).2
  | reset (opened : Opened level format engine) :
      Opened level format (reset engine)

/-- Whatever an engine went through, a reset makes it new. -/
class Renewable (ε : Type) [DeflateEngine ε] : Prop where
  reset_alike {level : Fin 10} {format : Format} {engine : ε} :
    Opened level format engine → Alike (reset engine) (start level format)

theorem Alike.refl (engine : ε) : Alike engine engine :=
  fun _ _ _ _ => rfl

theorem Alike.answer {first second : ε} (alike : Alike first second)
    (flush : Flush) (input : Bytes) (room : Nat) :
    (DeflateEngine.run first flush input room).1 =
      (DeflateEngine.run second flush input room).1 :=
  alike [] flush input room

theorem Alike.run {first second : ε} (alike : Alike first second)
    (flush : Flush) (input : Bytes) (room : Nat) :
    Alike (DeflateEngine.run first flush input room).2
      (DeflateEngine.run second flush input room).2 :=
  fun calls => alike (⟨flush, input, room⟩ :: calls)

end DeflateEngine

namespace InflateEngine

open Engine (Call)

variable {ι : Type} [InflateEngine ι]

def after (engine : ι) : List Call → ι
  | [] => engine
  | call :: calls => after (run engine call.flush call.input call.room).2 calls

def Alike (first second : ι) : Prop :=
  ∀ (calls : List Call) (flush : Flush) (input : Bytes) (room : Nat),
    (run (after first calls) flush input room).1 =
      (run (after second calls) flush input room).1

/-- An engine is rewound for its own format only, and one for gzip not at all. -/
inductive Opened : Format → ι → Prop
  | start (format : Format) : Opened format (start format)
  | run (opened : Opened format engine) (flush : Flush) (input : Bytes) (room : Nat) :
      Opened format (run engine flush input room).2
  | rewindZlib (opened : Opened .zlib engine) :
      Opened .zlib (rewind true engine)
  | rewindRaw (opened : Opened .deflate engine) :
      Opened .deflate (rewind false engine)

class Renewable (ι : Type) [InflateEngine ι] : Prop where
  rewind_zlib_alike {engine : ι} :
    Opened .zlib engine → Alike (rewind true engine) (start .zlib)
  rewind_raw_alike {engine : ι} :
    Opened .deflate engine → Alike (rewind false engine) (start .deflate)

theorem Alike.refl (engine : ι) : Alike engine engine :=
  fun _ _ _ _ => rfl

theorem Alike.answer {first second : ι} (alike : Alike first second)
    (flush : Flush) (input : Bytes) (room : Nat) :
    (InflateEngine.run first flush input room).1 =
      (InflateEngine.run second flush input room).1 :=
  alike [] flush input room

theorem Alike.run {first second : ι} (alike : Alike first second)
    (flush : Flush) (input : Bytes) (room : Nat) :
    Alike (InflateEngine.run first flush input room).2
      (InflateEngine.run second flush input room).2 :=
  fun calls => alike (⟨flush, input, room⟩ :: calls)

end InflateEngine

namespace Engine

variable {ε ι : Type} [DeflateEngine ε] [InflateEngine ι]

private theorem engine_of_deflate {engine next : ε} {operation : String} {flush : Flush}
    {input : Bytes} {room : Nat} {answer : Except CodecError (Step input room)}
    (ran : deflate engine operation flush input room = (answer, next)) :
    next = (DeflateEngine.run engine flush input room).2 := by
  unfold deflate at ran
  split at ran
  all_goals
    next outcome =>
      cases ran
      rw [outcome]

private theorem engine_of_inflate {engine next : ι} {flush : Flush} {input : Bytes}
    {room : Nat} {answer : Except CodecError (Step input room)}
    (ran : inflate engine flush input room = (answer, next)) :
    next = (InflateEngine.run engine flush input room).2 := by
  unfold inflate at ran
  split at ran
  all_goals
    next outcome =>
      cases ran
      rw [outcome]

theorem opened_of_deflate {level : Fin 10} {format : Format} {engine next : ε}
    {operation : String} {flush : Flush} {input : Bytes} {room : Nat}
    {answer : Except CodecError (Step input room)}
    (opened : DeflateEngine.Opened level format engine)
    (ran : deflate engine operation flush input room = (answer, next)) :
    DeflateEngine.Opened level format next := by
  rw [engine_of_deflate ran]
  exact opened.run flush input room

theorem opened_of_inflate {format : Format} {engine next : ι} {flush : Flush}
    {input : Bytes} {room : Nat} {answer : Except CodecError (Step input room)}
    (opened : InflateEngine.Opened format engine)
    (ran : inflate engine flush input room = (answer, next)) :
    InflateEngine.Opened format next := by
  rw [engine_of_inflate ran]
  exact opened.run flush input room

theorem deflate_of_alike {first second next : ε}
    {operation : String} {flush : Flush} {input : Bytes} {room : Nat}
    {answer : Except CodecError (Step input room)}
    (alike : DeflateEngine.Alike first second)
    (ran : deflate first operation flush input room = (answer, next)) :
    ∃ other, deflate second operation flush input room = (answer, other) ∧
      DeflateEngine.Alike next other := by
  refine ⟨(DeflateEngine.run second flush input room).2, ?_, ?_⟩
  · have same := alike.answer flush input room
    unfold deflate at ran ⊢
    rcases firstRan : DeflateEngine.run first flush input room with ⟨one, _⟩
    rcases secondRan : DeflateEngine.run second flush input room with ⟨two, _⟩
    rw [firstRan, secondRan] at same
    rw [firstRan] at ran
    obtain rfl : one = two := same
    cases one <;> cases ran <;> rfl
  · rw [engine_of_deflate ran]
    exact alike.run flush input room

theorem inflate_of_alike {first second next : ι} {flush : Flush} {input : Bytes}
    {room : Nat} {answer : Except CodecError (Step input room)}
    (alike : InflateEngine.Alike first second)
    (ran : inflate first flush input room = (answer, next)) :
    ∃ other, inflate second flush input room = (answer, other) ∧
      InflateEngine.Alike next other := by
  refine ⟨(InflateEngine.run second flush input room).2, ?_, ?_⟩
  · have same := alike.answer flush input room
    unfold inflate at ran ⊢
    rcases firstRan : InflateEngine.run first flush input room with ⟨one, _⟩
    rcases secondRan : InflateEngine.run second flush input room with ⟨two, _⟩
    rw [firstRan, secondRan] at same
    rw [firstRan] at ran
    obtain rfl : one = two := same
    cases one <;> cases ran <;> rfl
  · rw [engine_of_inflate ran]
    exact alike.run flush input room

theorem opened_restart {format : Format} {engine : ι}
    (opened : InflateEngine.Opened format engine) :
    InflateEngine.Opened format (restart format engine) := by
  cases format with
  | gzip => exact .start .gzip
  | zlib => exact .rewindZlib opened
  | deflate => exact .rewindRaw opened

/-- Reopening and both ways of rewinding make an engine new. -/
theorem restart_alike [InflateEngine.Renewable ι] {format : Format} {engine : ι}
    (opened : InflateEngine.Opened format engine) :
    InflateEngine.Alike (restart format engine)
      (InflateEngine.start format) := by
  cases format with
  | gzip => exact .refl _
  | zlib => exact InflateEngine.Renewable.rewind_zlib_alike opened
  | deflate => exact InflateEngine.Renewable.rewind_raw_alike opened

end Engine

private theorem Deflate.Encoder.setting_of_opened {level : Fin 10} {format : Format}
    {encoder : Encoder} (opened : DeflateEngine.Opened level format encoder) :
    encoder.setting = (level, format) := by
  induction opened with
  | start => rfl
  | run opened flush input room induction =>
      exact (setting_run _ flush input room).trans induction
  | reset opened induction => exact induction

instance : DeflateEngine.Renewable Deflate.Encoder where
  reset_alike {level format encoder} opened := by
    have sameSetting : encoder.setting =
        (Deflate.Encoder.start level format).setting :=
      Deflate.Encoder.setting_of_opened opened
    have same : encoder.reset = Deflate.Encoder.start level format :=
      Deflate.Encoder.reset_eq_of_setting sameSetting
    change DeflateEngine.Alike encoder.reset _
    rw [same]
    exact .refl _

instance : InflateEngine.Renewable Inflate.Decoder where
  rewind_zlib_alike _ := .refl _
  rewind_raw_alike _ := .refl _

end StreamCodec
