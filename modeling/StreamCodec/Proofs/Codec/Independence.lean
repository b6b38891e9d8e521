import StreamCodec.Codec.Software
import StreamCodec.Proofs.Engine.Renewal

namespace StreamCodec

/-! One-shot calls are independent of each other. Between calls the engine that a
codec has at hand is always as good as new. -/

namespace OneShot

variable {ε ι : Type} [DeflateEngine ε] [InflateEngine ι]

private theorem deflateFrom_of_alike (tooSmall : CodecError) (first : ε) (rest : Bytes)
    (room : Nat) (written : Bytes) :
    ∀ second, DeflateEngine.Alike first second →
      (deflateFrom tooSmall first rest room written).1 =
        (deflateFrom tooSmall second rest room written).1 := by
  fun_induction deflateFrom tooSmall first rest room written with
  | case1 first rest room written error next ran =>
      intro second alike
      obtain ⟨other, otherRan, _⟩ := Engine.deflate_of_alike alike ran
      rw [deflateFrom, otherRan]
  | case2 first rest room written step next ran written' ended =>
      intro second alike
      obtain ⟨other, otherRan, _⟩ := Engine.deflate_of_alike alike ran
      rw [deflateFrom, otherRan]
      simp only [if_pos ended, written']
  | case3 first rest room written step next ran going idle =>
      intro second alike
      obtain ⟨other, otherRan, _⟩ := Engine.deflate_of_alike alike ran
      rw [deflateFrom, otherRan]
      simp only [if_neg going, dif_pos idle]
  | case4 first rest room written step next ran written' going busy induction =>
      intro second alike
      obtain ⟨other, otherRan, onward⟩ := Engine.deflate_of_alike alike ran
      rw [deflateFrom.eq_def _ second, otherRan]
      simp only [if_neg going, dif_neg busy]
      exact induction other onward

private theorem inflateFrom_of_alike (length capacity : Nat) (first : ι) (rest : Bytes)
    (room : Nat) (written : Bytes) :
    ∀ second, InflateEngine.Alike first second →
      (inflateFrom length capacity first rest room written).1 =
        (inflateFrom length capacity second rest room written).1 := by
  fun_induction inflateFrom length capacity first rest room written with
  | case1 first rest room written error next ran =>
      intro second alike
      obtain ⟨other, otherRan, _⟩ := Engine.inflate_of_alike alike ran
      rw [inflateFrom, otherRan]
  | case2 first rest room written step next ran written' ended =>
      intro second alike
      obtain ⟨other, otherRan, _⟩ := Engine.inflate_of_alike alike ran
      rw [inflateFrom, otherRan]
      simp only [if_pos ended, written']
  | case3 first rest written step next ran going idle =>
      intro second alike
      obtain ⟨other, otherRan, _⟩ := Engine.inflate_of_alike alike ran
      rw [inflateFrom, otherRan]
      simp only [if_neg going, dif_pos idle, if_true]
  | case4 first rest room written step next ran going idle roomy =>
      intro second alike
      obtain ⟨other, otherRan, _⟩ := Engine.inflate_of_alike alike ran
      rw [inflateFrom, otherRan]
      simp only [if_neg going, dif_pos idle, if_neg roomy]
  | case5 first rest room written step next ran written' going busy induction =>
      intro second alike
      obtain ⟨other, otherRan, onward⟩ := Engine.inflate_of_alike alike ran
      rw [inflateFrom.eq_def _ _ second, otherRan]
      simp only [if_neg going, dif_neg busy]
      exact induction other onward

private theorem opened_deflateFrom {level : Fin 10} {format : Format} {engine : ε}
    (opened : DeflateEngine.Opened level format engine)
    (tooSmall : CodecError) (rest : Bytes) (room : Nat) (written : Bytes) :
    DeflateEngine.Opened level format
      (deflateFrom tooSmall engine rest room written).2 := by
  fun_induction deflateFrom tooSmall engine rest room written with
  | case1 engine rest room written error next ran =>
      exact Engine.opened_of_deflate opened ran
  | case2 engine rest room written step next ran =>
      exact Engine.opened_of_deflate opened ran
  | case3 engine rest room written step next ran =>
      exact Engine.opened_of_deflate opened ran
  | case4 engine rest room written step next ran written' going busy induction =>
      apply induction
      exact Engine.opened_of_deflate opened ran

private theorem opened_inflateFrom {format : Format} {engine : ι}
    (opened : InflateEngine.Opened format engine) (length capacity : Nat)
    (rest : Bytes) (room : Nat) (written : Bytes) :
    InflateEngine.Opened format
      (inflateFrom length capacity engine rest room written).2 := by
  fun_induction inflateFrom length capacity engine rest room written with
  | case1 engine rest room written error next ran =>
      exact Engine.opened_of_inflate opened ran
  | case2 engine rest room written step next ran =>
      exact Engine.opened_of_inflate opened ran
  | case3 engine rest written step next ran =>
      exact Engine.opened_of_inflate opened ran
  | case4 engine rest room written step next ran =>
      exact Engine.opened_of_inflate opened ran
  | case5 engine rest room written step next ran written' going busy induction =>
      apply induction
      exact Engine.opened_of_inflate opened ran

end OneShot

/-- The engine at hand cannot be told from a newly opened one. -/
inductive Direction.AsNew [DeflateEngine ε] [InflateEngine ι] (level : Fin 10)
    (format : Format) : Direction ε ι → Prop
  | idle : AsNew level format .idle
  | compressing {engine : ε} (opened : DeflateEngine.Opened level format engine)
      (alike : DeflateEngine.Alike engine (DeflateEngine.start level format)) :
      AsNew level format (.compressing engine)
  | decompressing {engine : ι} (opened : InflateEngine.Opened format engine)
      (alike : InflateEngine.Alike engine (InflateEngine.start format)) :
      AsNew level format (.decompressing engine)

namespace SoftwareCodec

variable {ε ι : Type} [DeflateEngine ε] [InflateEngine ι]

inductive Request
  | setUp
  | compress (input : Bytes) (room : Nat)
  | decompress (input : Bytes) (room : Nat)

def serve (codec : SoftwareCodec ε ι) :
    Request → Outcome (SoftwareCodec ε ι) Bytes
  | .setUp =>
      let outcome := codec.setUp
      ⟨outcome.result.map fun () => [], outcome.state, outcome.log⟩
  | .compress input room => codec.compress input room
  | .decompress input room => codec.decompress input room

def serveAll (codec : SoftwareCodec ε ι) :
    List Request → List (Except CodecError Bytes)
  | [] => []
  | request :: requests =>
      (codec.serve request).result :: (codec.serve request).state.serveAll requests

def afterAll (codec : SoftwareCodec ε ι) : List Request → SoftwareCodec ε ι
  | [] => codec
  | request :: requests => (codec.serve request).state.afterAll requests

structure AsNew (level : Fin 10) (format : Format) (codec : SoftwareCodec ε ι) :
    Prop where
  level_eq : codec.level = level.val
  format_eq : codec.format = format
  direction : codec.direction.AsNew level format

variable {level : Fin 10} {format : Format} {codec : SoftwareCodec ε ι}

theorem AsNew.enterCompression (asNew : codec.AsNew level format) :
    ∃ (engine : ε) (log : List Log.Event),
      codec.enterCompression =
        ⟨.ok engine, { codec with direction := .compressing engine }, log⟩ ∧
      DeflateEngine.Opened level format engine ∧
      DeflateEngine.Alike engine (DeflateEngine.start level format) := by
  have opens : Engine.openDeflate ε codec.level codec.format =
      .ok (DeflateEngine.start level format) := by
    rw [asNew.level_eq, asNew.format_eq]
    exact Engine.openDeflate_ok level format
  rcases codec with ⟨_, _, direction⟩
  cases asNew.direction with
  | idle =>
      exact ⟨_, [.enteringCompression .idle],
        by simp only [SoftwareCodec.enterCompression, opens, Direction.mode],
        .start, .refl _⟩
  | compressing opened alike => exact ⟨_, [], rfl, opened, alike⟩
  | decompressing opened alike =>
      exact ⟨_, [.enteringCompression .decompressing],
        by simp only [SoftwareCodec.enterCompression, opens, Direction.mode],
        .start, .refl _⟩

theorem AsNew.enterDecompression (asNew : codec.AsNew level format) :
    ∃ (engine : ι) (log : List Log.Event),
      codec.enterDecompression =
        ⟨.ok engine, { codec with direction := .decompressing engine }, log⟩ ∧
      InflateEngine.Opened format engine ∧
      InflateEngine.Alike engine (InflateEngine.start format) := by
  rcases codec with ⟨_, _, direction⟩
  obtain rfl := asNew.format_eq
  cases asNew.direction with
  | idle => exact ⟨_, [.enteringDecompression .idle], rfl, .start _, .refl _⟩
  | compressing opened alike =>
      exact ⟨_, [.enteringDecompression .compressing], rfl, .start _, .refl _⟩
  | decompressing opened alike => exact ⟨_, [], rfl, opened, alike⟩

theorem AsNew.setUp (asNew : codec.AsNew level format) :
    codec.setUp.result = .ok () ∧ codec.setUp.state.AsNew level format := by
  obtain ⟨engine, log, entered, opened, alike⟩ := asNew.enterCompression
  have halfway :
      ({ codec with direction := .compressing engine } :
        SoftwareCodec ε ι).AsNew level format :=
    ⟨asNew.level_eq, asNew.format_eq, .compressing opened alike⟩
  obtain ⟨other, otherLog, reentered, otherOpened, otherAlike⟩ :=
    halfway.enterDecompression
  unfold SoftwareCodec.setUp
  simp only [entered, reentered]
  exact ⟨rfl, asNew.level_eq, asNew.format_eq,
    .decompressing otherOpened otherAlike⟩

theorem AsNew.compress_result (asNew : codec.AsNew level format)
    (input : Bytes) (room : Nat) :
    (codec.compress input room).result =
      (OneShot.deflate (DeflateEngine.start (ε := ε) level format) input
        room).1 := by
  obtain ⟨engine, log, entered, _, alike⟩ := asNew.enterCompression
  unfold SoftwareCodec.compress
  simp only [entered]
  exact OneShot.deflateFrom_of_alike _ engine input room [] _ alike

theorem AsNew.compress [DeflateEngine.Renewable ε]
    (asNew : codec.AsNew level format) (input : Bytes) (room : Nat) :
    (codec.compress input room).state.AsNew level format := by
  obtain ⟨engine, log, entered, opened, _⟩ := asNew.enterCompression
  have spent : DeflateEngine.Opened level format
      (OneShot.deflate engine input room).2 :=
    OneShot.opened_deflateFrom opened _ input room []
  unfold SoftwareCodec.compress
  simp only [entered]
  exact ⟨asNew.level_eq, asNew.format_eq, .compressing spent.reset
    (DeflateEngine.Renewable.reset_alike spent)⟩

theorem AsNew.decompress_result (asNew : codec.AsNew level format)
    (input : Bytes) (room : Nat) :
    (codec.decompress input room).result =
      if room = 0 then .ok []
      else (OneShot.inflate (InflateEngine.start (ι := ι) format) input room).1 := by
  unfold SoftwareCodec.decompress
  split
  · rfl
  · obtain ⟨engine, log, entered, _, alike⟩ := asNew.enterDecompression
    simp only [entered]
    exact OneShot.inflateFrom_of_alike _ _ engine input room [] _ alike

theorem AsNew.decompress [InflateEngine.Renewable ι]
    (asNew : codec.AsNew level format) (input : Bytes) (room : Nat) :
    (codec.decompress input room).state.AsNew level format := by
  unfold SoftwareCodec.decompress
  split
  · exact asNew
  · obtain ⟨engine, log, entered, opened, _⟩ := asNew.enterDecompression
    have spent : InflateEngine.Opened format
        (OneShot.inflate engine input room).2 :=
      OneShot.opened_inflateFrom opened _ _ input room []
    simp only [entered]
    refine ⟨asNew.level_eq, asNew.format_eq, ?_⟩
    rw [asNew.format_eq]
    exact .decompressing (Engine.opened_restart spent)
      (Engine.restart_alike spent)

private theorem new_exactly (level : Fin 10) (format : Format) :
    ∃ fresh : SoftwareCodec ε ι,
      new (.exactly level.val) format = .ok fresh ∧ fresh.AsNew level format := by
  refine ⟨⟨level.val, format, .idle⟩, ?_, rfl, rfl, .idle⟩
  have inRange : Algorithm.gzip.profile.minimumLevel ≤ (level.val : Int) ∧
      (level.val : Int) ≤ Algorithm.gzip.profile.maximumLevel := by
    simp only [Algorithm.profile]
    omega
  simp only [new, Level.resolve, if_pos inRange]
  rfl

theorem asNew_of_new_exactly
    (made : new (.exactly level.val) format = .ok codec) :
    codec.AsNew level format := by
  obtain ⟨fresh, freshMade, asNew⟩ := new_exactly (ε := ε) (ι := ι) level format
  rw [freshMade] at made
  cases made
  exact asNew

theorem asNew_of_new {request : Level}
    (made : new request format = .ok codec) :
    ∃ level, codec.AsNew level format := by
  unfold new at made
  cases request with
  | default =>
      cases made
      exact ⟨9, rfl, rfl, .idle⟩
  | exactly level =>
      unfold Level.resolve at made
      simp only at made
      split at made
      · next inRange =>
          cases made
          simp only [Algorithm.profile] at inRange
          refine ⟨⟨level.toNat, by omega⟩, ?_, rfl, .idle⟩
          exact (Int.toNat_of_nonneg inRange.1).symm
      · cases made

variable [DeflateEngine.Renewable ε] [InflateEngine.Renewable ι]

theorem AsNew.serve {other : SoftwareCodec ε ι} (asNew : codec.AsNew level format)
    (otherAsNew : other.AsNew level format) (request : Request) :
    (codec.serve request).result = (other.serve request).result ∧
      (codec.serve request).state.AsNew level format := by
  cases request with
  | setUp =>
      refine ⟨?_, asNew.setUp.2⟩
      simp only [SoftwareCodec.serve, asNew.setUp.1, otherAsNew.setUp.1]
  | compress input room =>
      exact ⟨(asNew.compress_result input room).trans
        (otherAsNew.compress_result input room).symm, asNew.compress input room⟩
  | decompress input room =>
      exact ⟨(asNew.decompress_result input room).trans
        (otherAsNew.decompress_result input room).symm,
        asNew.decompress input room⟩

theorem AsNew.serveAll {fresh : SoftwareCodec ε ι}
    (asNew : codec.AsNew level format) (freshAsNew : fresh.AsNew level format)
    (requests : List Request) :
    codec.serveAll requests =
      requests.map fun request => (fresh.serve request).result := by
  induction requests generalizing codec with
  | nil => rfl
  | cons request requests induction =>
      obtain ⟨same, stays⟩ := asNew.serve freshAsNew request
      simp only [SoftwareCodec.serveAll, List.map_cons, same, induction stays]

theorem AsNew.afterAll (asNew : codec.AsNew level format)
    (requests : List Request) :
    (codec.afterAll requests).AsNew level format := by
  induction requests generalizing codec with
  | nil => exact asNew
  | cons request requests induction => exact induction (asNew.serve asNew request).2

/-- Whatever calls came before, a call answers what it answers on a codec that was
just made. -/
theorem serveAll_eq_map_serve_fresh (level : Fin 10) (format : Format) :
    ∃ fresh : SoftwareCodec ε ι,
      new (.exactly level.val) format = .ok fresh ∧
      ∀ requests : List Request,
        fresh.serveAll requests =
          requests.map fun request => (fresh.serve request).result := by
  obtain ⟨fresh, made, asNew⟩ := new_exactly (ε := ε) (ι := ι) level format
  exact ⟨fresh, made, fun requests => asNew.serveAll asNew requests⟩

theorem serveAll_eq_map_serve_fresh_of_failures :
    DeflateEngine.Renewable Deflate.Encoder ∧
    InflateEngine.Renewable Inflate.Decoder ∧
    ∃ fresh : SoftwareCodec Deflate.Encoder Inflate.Decoder,
      new (.exactly (6 : Fin 10).val) .zlib = .ok fresh ∧
      fresh.serveAll
          [.compress [1, 2, 3] 4, .decompress [0x78, 0x9c, 7] 9, .setUp,
            .decompress [0x78, 0x9c] 0, .compress [1, 2, 3] 64] =
        [.compress [1, 2, 3] 4, .decompress [0x78, 0x9c, 7] 9, .setUp,
            .decompress [0x78, 0x9c] 0, .compress [1, 2, 3] 64].map
          fun request => (fresh.serve request).result := by
  obtain ⟨fresh, made, answers⟩ :=
    serveAll_eq_map_serve_fresh (ε := Deflate.Encoder) (ι := Inflate.Decoder)
      6 .zlib
  exact ⟨inferInstance, inferInstance, fresh, made, answers _⟩

end SoftwareCodec

end StreamCodec
