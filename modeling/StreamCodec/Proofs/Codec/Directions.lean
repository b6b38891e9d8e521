import Mathlib.Data.List.Chain
import StreamCodec.Proofs.Codec.Independence
import StreamCodec.Proofs.Engine.Inflating

namespace StreamCodec

/-! Which way a codec is turned, and what its log tells of that. -/

inductive Heading
  | compression
  | decompression
  deriving DecidableEq

namespace Heading

def mode : Heading → Mode
  | compression => .compressing
  | decompression => .decompressing

def entering : Heading → Mode → Log.Event
  | compression => .enteringCompression
  | decompression => .enteringDecompression

end Heading

namespace Mode

/-- To go on as before is no turn. -/
def turn (mode : Mode) (heading : Heading) : List Log.Event :=
  if mode = heading.mode then [] else [heading.entering mode]

def turns (mode : Mode) : List Heading → List Log.Event
  | [] => []
  | heading :: headings => mode.turn heading ++ heading.mode.turns headings

def after (mode : Mode) (headings : List Heading) : Mode :=
  (headings.getLast?.map Heading.mode).getD mode

@[simp] theorem turns_nil (mode : Mode) : mode.turns [] = [] := rfl

@[simp] theorem turns_singleton (mode : Mode) (heading : Heading) :
    mode.turns [heading] = mode.turn heading :=
  List.append_nil _

@[simp] theorem after_cons (mode : Mode) (heading : Heading)
    (headings : List Heading) :
    mode.after (heading :: headings) = heading.mode.after headings := by
  cases headings with
  | nil => rfl
  | cons second later => rfl

theorem after_append (mode : Mode) (first second : List Heading) :
    mode.after (first ++ second) = (mode.after first).after second := by
  induction first generalizing mode with
  | nil => rfl
  | cons heading headings induction =>
      rw [List.cons_append, after_cons, after_cons]
      exact induction heading.mode

theorem turns_append (mode : Mode) (first second : List Heading) :
    mode.turns (first ++ second) =
      mode.turns first ++ (mode.after first).turns second := by
  induction first generalizing mode with
  | nil => rfl
  | cons heading headings induction =>
      rw [List.cons_append, turns, turns, after_cons, induction, List.append_assoc]

theorem length_turns (mode : Mode) (headings : List Heading) :
    (mode.turns headings).length =
      ((mode :: headings.map Heading.mode).zip (headings.map Heading.mode)).countP
        fun change => change.1 ≠ change.2 := by
  induction headings generalizing mode with
  | nil => rfl
  | cons heading headings induction =>
      rw [turns, List.length_append, induction, List.map_cons, List.zip_cons_cons,
        List.countP_cons, Nat.add_comm, turn]
      by_cases same : mode = heading.mode
      · simp [same]
      · simp [same]

end Mode

/-- A turn is made from where the one before it led, and to the other side. -/
def Log.Event.Follows (earlier later : Log.Event) : Prop :=
  ∃ origin heading next, earlier = Heading.entering heading origin ∧
    later = Heading.entering next heading.mode ∧ next ≠ heading

theorem Mode.isChain_turns (mode : Mode) (headings : List Heading) :
    (∀ first ∈ (mode.turns headings).head?, ∃ heading : Heading,
      first = heading.entering mode ∧ heading.mode ≠ mode) ∧
    (mode.turns headings).IsChain Log.Event.Follows := by
  induction headings generalizing mode with
  | nil => simp
  | cons heading headings induction =>
      obtain ⟨first, chain⟩ := induction heading.mode
      rw [turns, turn]
      by_cases same : mode = heading.mode
      · subst same
        rw [if_pos rfl, List.nil_append]
        exact ⟨first, chain⟩
      · rw [if_neg same, List.singleton_append]
        refine ⟨?_, List.isChain_cons.2 ⟨?_, chain⟩⟩
        · simp only [List.head?_cons, Option.mem_some_iff]
          rintro _ rfl
          exact ⟨heading, rfl, Ne.symm same⟩
        · intro second member
          obtain ⟨next, rfl, other⟩ := first second member
          refine ⟨mode, heading, next, rfl, rfl, ?_⟩
          rintro rfl
          exact other rfl

namespace OneShot

variable {ε ι : Type}

private theorem error_of_deflateFrom [DeflateEngine ε] {tooSmall error : CodecError}
    (engine : ε) (rest : Bytes) (room : Nat) (written : Bytes)
    (fails : (deflateFrom tooSmall engine rest room written).1 = .error error) :
    error = tooSmall ∨
      ∃ words, error = .backend Engine.engineName "deflate" (engineWords words) := by
  fun_induction deflateFrom tooSmall engine rest room written with
  | case1 engine rest room written fault next ran =>
      cases fails
      unfold Engine.deflate at ran
      split at ran
      · cases ran
      · cases ran
        exact .inr ⟨_, rfl⟩
  | case2 => cases fails
  | case3 =>
      cases fails
      exact .inl rfl
  | case4 engine rest room written step next ran written' going busy induction =>
      exact induction fails

private theorem error_of_inflateFrom [InflateEngine ι] {length capacity : Nat}
    {error : CodecError} (engine : ι) (rest : Bytes) (room : Nat) (written : Bytes)
    (fails :
      (inflateFrom length capacity engine rest room written).1 = .error error) :
    error = .bufferTooSmall codecName length capacity ∨
      ∃ corruption, error = .corruptInput corruption := by
  fun_induction inflateFrom length capacity engine rest room written with
  | case1 engine rest room written fault next ran =>
      cases fails
      obtain ⟨words, _, rfl⟩ := Engine.run_of_inflate_error ran
      exact .inr ⟨_, rfl⟩
  | case2 => cases fails
  | case3 =>
      cases fails
      exact .inl rfl
  | case4 =>
      cases fails
      exact .inr ⟨_, rfl⟩
  | case5 engine rest room written step next ran written' going busy induction =>
      exact induction fails

end OneShot

namespace SoftwareCodec

variable {ε ι : Type}

/-- There is an engine for the codec's level. -/
def Openable (codec : SoftwareCodec ε ι) : Prop :=
  ∃ level : Fin 10, codec.level = level.val

/-- The codec was turned to these ways, one after the other, and is the same
otherwise. -/
structure Turned (codec : SoftwareCodec ε ι) (headings : List Heading)
    (state : SoftwareCodec ε ι) (log : List Log.Event) : Prop where
  mode_eq : state.direction.mode = codec.direction.mode.after headings
  log_eq : log = codec.direction.mode.turns headings
  level_eq : state.level = codec.level
  format_eq : state.format = codec.format

variable {codec : SoftwareCodec ε ι}

theorem Turned.refl (codec : SoftwareCodec ε ι) : codec.Turned [] codec [] :=
  ⟨rfl, rfl, rfl, rfl⟩

theorem Turned.trans {first second : List Heading} {middle last : SoftwareCodec ε ι}
    {before after : List Log.Event} (turned : codec.Turned first middle before)
    (onward : middle.Turned second last after) :
    codec.Turned (first ++ second) last (before ++ after) where
  mode_eq := by rw [onward.mode_eq, turned.mode_eq, Mode.after_append]
  log_eq := by rw [onward.log_eq, turned.log_eq, turned.mode_eq, Mode.turns_append]
  level_eq := onward.level_eq.trans turned.level_eq
  format_eq := onward.format_eq.trans turned.format_eq

theorem Turned.openable {headings : List Heading} {state : SoftwareCodec ε ι}
    {log : List Log.Event} (turned : codec.Turned headings state log)
    (openable : codec.Openable) : state.Openable := by
  obtain ⟨level, level_eq⟩ := openable
  exact ⟨level, turned.level_eq.trans level_eq⟩

private theorem turned_of_compressing (codec : SoftwareCodec ε ι) (engine : ε) :
    codec.Turned [.compression] { codec with direction := .compressing engine }
      (codec.direction.mode.turn .compression) :=
  ⟨rfl, (Mode.turns_singleton _ _).symm, rfl, rfl⟩

private theorem turned_of_decompressing (codec : SoftwareCodec ε ι) (engine : ι) :
    codec.Turned [.decompression] { codec with direction := .decompressing engine }
      (codec.direction.mode.turn .decompression) :=
  ⟨rfl, (Mode.turns_singleton _ _).symm, rfl, rfl⟩

/-- It neither lacks an engine nor is in the wrong state. -/
def Sound {α : Type} (result : Except CodecError α) : Prop :=
  (∀ engine fault, result ≠ .error (.backendInit engine fault)) ∧
    ∀ misuse, result ≠ .error (.invalidState misuse)

private theorem sound_ok {α : Type} (answer : α) : Sound (.ok answer) :=
  ⟨fun _ _ => by simp, fun _ => by simp⟩

private theorem Sound.map {α β : Type} {result : Except CodecError α}
    (sound : Sound result) (change : α → β) : Sound (result.map change) := by
  cases result with
  | ok answer => exact sound_ok (change answer)
  | error error =>
      refine ⟨fun engine fault fails => ?_, fun misuse fails => ?_⟩
      · cases fails
        exact sound.1 engine fault rfl
      · cases fails
        exact sound.2 misuse rfl

def heldDeflate (codec : SoftwareCodec ε ι) : Except CodecError ε :=
  match codec.direction with
  | .compressing engine => .ok engine
  | _ =>
      .error (.invalidState (.other "gzip codec failed to enter compression mode"))

def heldInflate (codec : SoftwareCodec ε ι) : Except CodecError ι :=
  match codec.direction with
  | .decompressing engine => .ok engine
  | _ =>
      .error (.invalidState (.other "gzip codec failed to enter decompression mode"))

def readAfter {α : Type} (held : SoftwareCodec ε ι → Except CodecError α)
    (filled : Outcome (SoftwareCodec ε ι) Unit) : Outcome (SoftwareCodec ε ι) α :=
  ⟨filled.result.bind fun () => held filled.state, filled.state, filled.log⟩

private theorem held_of_readAfter {α : Type}
    {held : SoftwareCodec ε ι → Except CodecError α}
    {filled : Outcome (SoftwareCodec ε ι) Unit} {engine : α}
    (read : (readAfter held filled).result = .ok engine) :
    filled.result = .ok () ∧ held filled.state = .ok engine := by
  rcases filled with ⟨error | ⟨⟩, state, log⟩
  · cases read
  · exact ⟨rfl, read⟩

section

variable [DeflateEngine ε]

def fillForCompression (codec : SoftwareCodec ε ι) :
    Outcome (SoftwareCodec ε ι) Unit :=
  match codec.direction with
  | .compressing _ => ⟨.ok (), codec, []⟩
  | direction =>
      let log := [.enteringCompression direction.mode]
      let emptied : SoftwareCodec ε ι := { codec with direction := .idle }
      match Engine.openDeflate ε emptied.level emptied.format with
      | .ok engine =>
          ⟨.ok (), { emptied with direction := .compressing engine }, log⟩
      | .error error => ⟨.error error, emptied, log⟩

private theorem enterCompression_eq (codec : SoftwareCodec ε ι) :
    codec.enterCompression = readAfter heldDeflate codec.fillForCompression := by
  rcases codec with ⟨level, format, direction⟩
  cases direction with
  | compressing => rfl
  | idle | decompressing =>
      simp only [enterCompression, fillForCompression]
      cases Engine.openDeflate ε level format <;> rfl

private theorem Openable.openDeflate_ok (openable : codec.Openable) :
    ∃ engine, Engine.openDeflate ε codec.level codec.format = .ok engine := by
  obtain ⟨level, level_eq⟩ := openable
  rw [level_eq]
  exact ⟨_, Engine.openDeflate_ok level codec.format⟩

theorem Openable.enterCompression (openable : codec.Openable) :
    ∃ engine, codec.enterCompression =
      ⟨.ok engine, { codec with direction := .compressing engine },
        codec.direction.mode.turn .compression⟩ := by
  obtain ⟨opened, opens⟩ := openable.openDeflate_ok
  rcases codec with ⟨_, format, direction⟩
  cases direction with
  | compressing engine => exact ⟨engine, rfl⟩
  | idle | decompressing =>
      refine ⟨opened, ?_⟩
      simp only [SoftwareCodec.enterCompression, opens]
      rfl

private theorem sound_deflate (engine : ε) (input : Bytes) (room : Nat) :
    Sound (OneShot.deflate engine input room).1 := by
  cases result : (OneShot.deflate engine input room).1 with
  | ok bytes => exact sound_ok bytes
  | error error =>
      obtain rfl | ⟨words, rfl⟩ :=
        OneShot.error_of_deflateFrom engine input room [] result
      · exact ⟨fun _ _ => by simp, fun _ => by simp⟩
      · exact ⟨fun _ _ => by simp, fun _ => by simp⟩

theorem Openable.compress (openable : codec.Openable) (input : Bytes) (room : Nat) :
    Sound (codec.compress input room).result ∧
      codec.Turned [.compression] (codec.compress input room).state
        (codec.compress input room).log := by
  obtain ⟨engine, entered⟩ := openable.enterCompression
  unfold SoftwareCodec.compress
  simp only [entered]
  exact ⟨sound_deflate engine input room, codec.turned_of_compressing _⟩

theorem Openable.makeCompressor (openable : codec.Openable) :
    ∃ session, codec.makeCompressor = .ok session := by
  obtain ⟨opened, opens⟩ := openable.openDeflate_ok
  simp only [SoftwareCodec.makeCompressor, DeflateSession.setUp, DeflateSession.new,
    opens]
  exact ⟨_, rfl⟩

end

section

variable [InflateEngine ι]

def fillForDecompression (codec : SoftwareCodec ε ι) :
    Outcome (SoftwareCodec ε ι) Unit :=
  match codec.direction with
  | .decompressing _ => ⟨.ok (), codec, []⟩
  | direction =>
      let log := [.enteringDecompression direction.mode]
      let emptied : SoftwareCodec ε ι := { codec with direction := .idle }
      let engine := InflateEngine.start emptied.format
      ⟨.ok (), { emptied with direction := .decompressing engine }, log⟩

private theorem enterDecompression_eq (codec : SoftwareCodec ε ι) :
    codec.enterDecompression = readAfter heldInflate codec.fillForDecompression := by
  rcases codec with ⟨level, format, direction⟩
  cases direction <;> rfl

private theorem enterDecompression_ok (codec : SoftwareCodec ε ι) :
    ∃ engine, codec.enterDecompression =
      ⟨.ok engine, { codec with direction := .decompressing engine },
        codec.direction.mode.turn .decompression⟩ := by
  rcases codec with ⟨level, format, direction⟩
  cases direction with
  | decompressing engine => exact ⟨engine, rfl⟩
  | idle | compressing => exact ⟨InflateEngine.start format, rfl⟩

private theorem sound_inflate (engine : ι) (input : Bytes) (room : Nat) :
    Sound (OneShot.inflate engine input room).1 := by
  cases result : (OneShot.inflate engine input room).1 with
  | ok bytes => exact sound_ok bytes
  | error error =>
      obtain rfl | ⟨corruption, rfl⟩ :=
        OneShot.error_of_inflateFrom engine input room [] result
      · exact ⟨fun _ _ => by simp, fun _ => by simp⟩
      · exact ⟨fun _ _ => by simp, fun _ => by simp⟩

theorem decompress_sound (codec : SoftwareCodec ε ι) (input : Bytes) (room : Nat) :
    Sound (codec.decompress input room).result ∧
      codec.Turned (if room = 0 then [] else [.decompression])
        (codec.decompress input room).state (codec.decompress input room).log := by
  unfold SoftwareCodec.decompress
  split
  · exact ⟨sound_ok [], .refl codec⟩
  · obtain ⟨engine, entered⟩ := codec.enterDecompression_ok
    simp only [entered]
    exact ⟨sound_inflate engine input room, codec.turned_of_decompressing _⟩

theorem makeDecompressor_ok (codec : SoftwareCodec ε ι) :
    ∃ session, codec.makeDecompressor = .ok session :=
  ⟨_, rfl⟩

end

/-! What a codec may be asked for, and the turns that it takes for that. -/

inductive Order
  | serve (request : Request)
  | makeCompressor
  | makeDecompressor

namespace Order

def headings : Order → List Heading
  | serve .setUp => [.compression, .decompression]
  | serve (.compress ..) => [.compression]
  | serve (.decompress _ room) => if room = 0 then [] else [.decompression]
  | makeCompressor | makeDecompressor => []

def Transforms : Order → Prop
  | serve (.compress ..) | serve (.decompress ..) => True
  | _ => False

end Order

structure Performs (codec : SoftwareCodec ε ι) (order : Order)
    (outcome : Outcome (SoftwareCodec ε ι) Unit) : Prop where
  turned : codec.Turned order.headings outcome.state outcome.log
  sound : Sound outcome.result
  succeeds : ¬order.Transforms → outcome.result = .ok ()

private theorem performs_of_ok {order : Order}
    {outcome : Outcome (SoftwareCodec ε ι) Unit}
    (turned : codec.Turned order.headings outcome.state outcome.log)
    (result : outcome.result = .ok ()) : codec.Performs order outcome where
  turned := turned
  sound := result ▸ sound_ok ()
  succeeds := fun _ => result

variable [DeflateEngine ε] [InflateEngine ι]

def perform (codec : SoftwareCodec ε ι) : Order → Outcome (SoftwareCodec ε ι) Unit
  | .serve request =>
      let outcome := codec.serve request
      ⟨outcome.result.map fun _ => (), outcome.state, outcome.log⟩
  | .makeCompressor => ⟨codec.makeCompressor.map fun _ => (), codec, []⟩
  | .makeDecompressor => ⟨codec.makeDecompressor.map fun _ => (), codec, []⟩

def performAll (codec : SoftwareCodec ε ι) :
    List Order → SoftwareCodec ε ι × List Log.Event
  | [] => (codec, [])
  | order :: orders =>
      let outcome := codec.perform order
      let later := outcome.state.performAll orders
      (later.1, outcome.log ++ later.2)

theorem Openable.setUp (openable : codec.Openable) :
    codec.setUp.result = .ok () ∧
      codec.Turned [.compression, .decompression] codec.setUp.state codec.setUp.log := by
  obtain ⟨engine, entered⟩ := openable.enterCompression
  have halfway := codec.turned_of_compressing engine
  generalize ({ codec with direction := .compressing engine } :
    SoftwareCodec ε ι) = compressing at entered halfway
  obtain ⟨other, reentered⟩ := compressing.enterDecompression_ok
  have turned := halfway.trans (compressing.turned_of_decompressing other)
  unfold SoftwareCodec.setUp
  simp only [entered, reentered]
  exact ⟨rfl, turned⟩

theorem Openable.perform (openable : codec.Openable) (order : Order) :
    codec.Performs order (codec.perform order) := by
  cases order with
  | serve request =>
      cases request with
      | setUp =>
          obtain ⟨succeeds, turned⟩ := openable.setUp
          apply performs_of_ok turned
          simp only [SoftwareCodec.perform, SoftwareCodec.serve, succeeds]
          rfl
      | compress input room =>
          obtain ⟨sound, turned⟩ := openable.compress input room
          exact ⟨turned, sound.map _, fun other => absurd trivial other⟩
      | decompress input room =>
          obtain ⟨sound, turned⟩ := codec.decompress_sound input room
          exact ⟨turned, sound.map _, fun other => absurd trivial other⟩
  | makeCompressor =>
      obtain ⟨session, made⟩ := openable.makeCompressor
      apply performs_of_ok (.refl codec)
      simp only [SoftwareCodec.perform, made]
      rfl
  | makeDecompressor =>
      obtain ⟨session, made⟩ := codec.makeDecompressor_ok
      apply performs_of_ok (.refl codec)
      simp only [SoftwareCodec.perform, made]
      rfl

theorem Openable.performAll (openable : codec.Openable) (orders : List Order) :
    codec.Turned (orders.flatMap Order.headings) (codec.performAll orders).1
      (codec.performAll orders).2 := by
  induction orders generalizing codec with
  | nil => exact .refl codec
  | cons order orders induction =>
      have turned := (openable.perform order).turned
      rw [List.flatMap_cons]
      exact turned.trans (induction (turned.openable openable))

theorem openable_of_new {request : Level} {format : Format}
    (made : new request format = .ok codec) :
    codec.Openable ∧ codec.direction = .idle := by
  obtain ⟨level, asNew⟩ := asNew_of_new made
  refine ⟨⟨level, asNew.level_eq⟩, ?_⟩
  unfold new at made
  cases resolved : request.resolve Algorithm.gzip.profile with
  | error error =>
      rw [resolved] at made
      cases made
  | ok level =>
      rw [resolved] at made
      cases made
      rfl

/-- Every order finds the engine it needs, the slot is turned as the orders so far have it,
and the log tells each of its turns once, each from where the one before it led. -/
theorem direction_told_by_orders {request : Level} {format : Format}
    (made : new request format = .ok codec) (orders : List Order) :
    let reached := (codec.performAll orders).1
    let log := (codec.performAll orders).2
    let headings := orders.flatMap Order.headings
    (∀ order, reached.Performs order (reached.perform order)) ∧
    reached.direction.mode = Mode.idle.after headings ∧
    log = Mode.idle.turns headings ∧
    log.length =
      ((Mode.idle :: headings.map Heading.mode).zip (headings.map Heading.mode)).countP
        (fun change => change.1 ≠ change.2) ∧
    (∀ first ∈ log.head?, ∃ heading : Heading, first = heading.entering .idle) ∧
    log.IsChain Log.Event.Follows ∧
    (reached.enterCompression = readAfter heldDeflate reached.fillForCompression ∧
      reached.fillForCompression.result = .ok () ∧
      ∃ engine, reached.fillForCompression.state.heldDeflate = .ok engine) ∧
    reached.enterDecompression = readAfter heldInflate reached.fillForDecompression ∧
      reached.fillForDecompression.result = .ok () ∧
      ∃ engine, reached.fillForDecompression.state.heldInflate = .ok engine := by
  intro reached log headings
  obtain ⟨openable, idle⟩ := openable_of_new made
  have turned : codec.Turned headings reached log := openable.performAll orders
  have modeEq : codec.direction.mode = .idle := by
    rw [idle]
    rfl
  have stays : reached.Openable := turned.openable openable
  have logEq : log = Mode.idle.turns headings := by
    rw [← modeEq]
    exact turned.log_eq
  obtain ⟨first, chain⟩ := Mode.idle.isChain_turns headings
  obtain ⟨deflate, entered⟩ := stays.enterCompression
  obtain ⟨inflate, reentered⟩ := reached.enterDecompression_ok
  rw [enterCompression_eq] at entered
  rw [enterDecompression_eq] at reentered
  obtain ⟨filled, held⟩ := held_of_readAfter (congrArg Outcome.result entered)
  obtain ⟨refilled, reheld⟩ := held_of_readAfter (congrArg Outcome.result reentered)
  refine ⟨stays.perform, ?_, logEq, logEq ▸ Mode.idle.length_turns headings,
    fun event member => ?_, logEq ▸ chain,
    ⟨enterCompression_eq reached, filled, deflate, held⟩,
    enterDecompression_eq reached, refilled, inflate, reheld⟩
  · rw [← modeEq]
    exact turned.mode_eq
  · rw [logEq] at member
    obtain ⟨heading, eventEq, _⟩ := first event member
    exact ⟨heading, eventEq⟩

theorem direction_told_by_orders_of_refusals :
    let codec : SoftwareCodec Deflate.Encoder Inflate.Decoder := ⟨9, .gzip, .idle⟩
    let orders : List Order :=
      [.serve (.decompress [7] 0), .serve (.decompress [7] 4), .makeCompressor,
        .serve .setUp, .serve (.compress [1, 2, 3] 4), .makeDecompressor]
    let reached := (codec.performAll orders).1
    new .default .gzip = .ok codec ∧
    (∀ order, reached.Performs order (reached.perform order)) ∧
    reached.direction.mode = .compressing ∧
    (codec.performAll orders).2 =
      [.enteringDecompression .idle, .enteringCompression .decompressing,
        .enteringDecompression .compressing, .enteringCompression .decompressing] ∧
    (codec.performAll orders).2.IsChain Log.Event.Follows := by
  intro codec orders reached
  have made : new .default .gzip = .ok codec := rfl
  obtain ⟨performs, mode, log, _, _, chain, _⟩ := direction_told_by_orders made orders
  exact ⟨made, performs, mode, log, chain⟩

end SoftwareCodec

end StreamCodec
