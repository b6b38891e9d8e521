import StreamCodec.Proofs.Deflate.Sizes
import StreamCodec.Proofs.Engine.Recording
import StreamCodec.Proofs.Engine.Sight

namespace StreamCodec.OneShot

open DeflateEngine (Concluding Sees Streams report start)
open Block Deflate

/-! How much of the input a stream has in it that an engine made in one call. -/

variable {ε : Type} [DeflateEngine ε] {level : Fin 10} {format : Format}
  {grammar : Grammar} {limit : Nat}

/-- A stream of the beginning of the input, which leaves out nothing of what is seen at
once. -/
structure Covers (grammar : Grammar) (limit : Nat) (input packed taken : Bytes) :
    Prop where
  isPrefix : taken <+: input
  isStream : grammar.IsStream packed taken
  limit_le : taken ≠ input → limit ≤ taken.length

private theorem Covers.eq_of_length_le {input packed taken : Bytes}
    (covers : Covers grammar limit input packed taken) (fits : input.length ≤ limit) :
    taken = input := by
  apply Decidable.byContradiction
  intro leaves
  have beyond := Nat.le_trans fits (covers.limit_le leaves)
  exact leaves (covers.isPrefix.eq_of_length_le beyond)

theorem covers_of_deflateFrom (sees : Sees ε level format limit)
    (streams : Streams ε level format grammar) {input packed : Bytes}
    (tooSmall : CodecError) (recorded : Recorded ε) (rest : Bytes) (room : Nat)
    (written : Bytes) :
    Concluding level format input rest written recorded.engine →
      takenBy recorded.records ++ rest = input →
      (deflateFrom tooSmall recorded rest room written).1 = .ok packed →
      Covers grammar limit input packed
        (takenBy (deflateFrom tooSmall recorded rest room written).2.records) := by
  fun_induction deflateFrom tooSmall recorded rest room written with
  | case1 =>
      intro _ _ succeeds
      cases succeeds
  | case2 recorded rest room written step next ran written' ended =>
      intro concluding inputEq succeeds
      simp only [Except.ok.injEq] at succeeds
      subst succeeds
      have ran := Engine.run_of_deflate_ok ran
      have innerRan := (Recorded.run_eq ran).1
      obtain ⟨taken, ending, contentEq⟩ := concluding.ending
      have takenEq : taken = takenBy recorded.records :=
        List.append_cancel_right (contentEq.trans inputEq.symm)
      subst takenEq
      have whole : takenBy recorded.records ++ step.taken ++ step.rest = input := by
        rw [List.append_assoc, Transfer.taken_append_rest, inputEq]
      rw [Recorded.takenBy_of_run ran]
      refine ⟨⟨step.rest, whole⟩, streams.ended ending innerRan ended, ?_⟩
      intro leaves
      rw [List.length_append]
      apply Nat.le_add_left_of_le
      apply sees.limit_le concluding innerRan ended
      intro nothing
      rw [nothing, List.append_nil] at whole
      exact leaves whole
  | case3 =>
      intro _ _ succeeds
      cases succeeds
  | case4 recorded rest room written step next ran written' going busy induction =>
      intro concluding inputEq succeeds
      have ran := Engine.run_of_deflate_ok ran
      apply induction (concluding.call (Recorded.run_eq ran).1 going) ?_ succeeds
      rw [Recorded.takenBy_of_run ran, List.append_assoc, Transfer.taken_append_rest,
        inputEq]

private theorem deflate_of_run {engine next : ε} {input : Bytes} {room : Nat}
    {step : Step input room}
    (ran : DeflateEngine.run engine .finish input room = (.ok step, next))
    (ended : step.status = .streamEnd) :
    deflate engine input room = (.ok step.output, next) := by
  rw [deflate, deflateFrom, Engine.deflate_of_run "deflate" ran]
  exact if_pos ended

private theorem deflate_of_ended_at_once (sees : Sees ε level format limit)
    {input : Bytes} {room : Nat} {told : CallReport} {next : ε}
    (reported : report (start level format : ε) .finish (input.take limit)
      (min room limit) = (.ok told, next))
    (ended : told.status = .streamEnd) :
    (deflate (start level format : ε) input room).1 = .ok told.output ∧
      takenBy (deflate (start level format : Recorded ε) input room).2.records =
        input.take limit := by
  rw [← sees.report_eq] at reported
  obtain ⟨step, ran, rfl⟩ := DeflateEngine.run_of_report reported
  have took : step.taken = input.take limit := sees.ended .start ran ended
  have recordedRan := (start level format : Recorded ε).run_of_engine ran
  refine ⟨congrArg Prod.fst (deflate_of_run ran ended), ?_⟩
  rw [deflate_of_run recordedRan ended, Recorded.takenBy_of_run recordedRan]
  exact took

/-- What a stream leaves out of its input is beyond what the engine sees at once. It is
left out whenever the first call ends the stream. -/
theorem deflate_takes (sees : Sees ε level format limit)
    (streams : Streams ε level format grammar) (input : Bytes) (room : Nat)
    {packed : Bytes}
    (succeeds : (deflate (start level format : ε) input room).1 = .ok packed) :
    let taken := takenBy (deflate (start level format : Recorded ε) input room).2.records
    taken <+: input ∧ grammar.IsStream packed taken ∧
      (taken ≠ input → limit ≤ taken.length) ∧
      (input.length ≤ limit → taken = input) ∧
      ∀ told next, report (start level format : ε) .finish (input.take limit)
          (min room limit) = (.ok told, next) →
        told.status = .streamEnd → packed = told.output ∧ taken = input.take limit := by
  intro taken
  have recorded : (deflate (start level format : Recorded ε) input room).1 =
      .ok packed := by
    rw [← succeeds]
    exact congrArg Prod.fst
      (deflate_recorded (start level format : Recorded ε) input room).symm
  have covers : Covers grammar limit input packed taken :=
    covers_of_deflateFrom sees streams _ _ input room [] .start rfl recorded
  refine ⟨covers.isPrefix, covers.isStream, covers.limit_le, covers.eq_of_length_le, ?_⟩
  intro told next reported ended
  obtain ⟨answered, took⟩ := deflate_of_ended_at_once sees reported ended
  rw [succeeds] at answered
  exact ⟨Except.ok.inj answered, took⟩

theorem deflate_takes_of_two_calls :
    let input : Bytes := [1, 2, 3]
    let packed : Bytes := [1, 3, 0, 252, 255, 1, 2, 3]
    let calls :=
      (deflate (start 0 .deflate : Recorded (Limited 4 Encoder)) input
        9).2.records
    Sees (Limited 4 Encoder) 0 .deflate 4 ∧
    Streams (Limited 4 Encoder) 0 .deflate (Inflate.grammar .deflate) ∧
    (deflate (start 0 .deflate : Limited 4 Encoder) input 9).1 = .ok packed ∧
    input.length ≤ 4 ∧ calls.length = 2 ∧ takenBy calls = input ∧
    (Inflate.grammar .deflate).IsStream packed input := by
  intro input packed calls
  have sees : Sees (Limited 4 Encoder) 0 .deflate 4 :=
    DeflateEngine.sees_limited 4
  have streams := DeflateEngine.streams_limited (streams_stored .deflate) 4
  have succeeds :
      (deflate (start 0 .deflate : Limited 4 Encoder) input 9).1 =
        .ok packed := by decide +kernel
  have fits : input.length ≤ 4 := by decide
  have two : calls.length = 2 := by decide +kernel
  obtain ⟨_, isStream, _, whole, _⟩ := deflate_takes sees streams input 9 succeeds
  have taken : takenBy calls = input := whole fits
  exact ⟨sees, streams, succeeds, fits, two, taken, taken ▸ isStream⟩

private theorem length_four_zeros_le :
    (Encoder.whole 6 .deflate [0, 0, 0, 0]).length ≤ 4 := by
  have tokens : tokenize .empty [0, 0, 0, 0] = [.literal 0, .copy 3 1] := by
    decide +kernel
  have lengths :
      ((fixedLiterals.codewords.lookup 0).getD []).length = 8 ∧
      ((fixedLiterals.codewords.lookup 257).getD []).length = 7 ∧
      ((fixedLiterals.codewords.lookup 256).getD []).length = 7 ∧
      ((fixedDistances.codewords.lookup 0).getD []).length = 5 := by decide +kernel
  obtain ⟨literal, length, ending, distance⟩ := lengths
  have head : Codes.fixed.head.length = 2 := by
    rw [Codes.fixed]
    rfl
  have bits (codes : Codes) : (codes.blockBits [.literal 0, .copy 3 1]).length =
      codes.head.length + (codes.literalBits 0).length +
        (codes.literalBits 257).length + (codes.distanceBits 0).length +
        (codes.literalBits 256).length := by
    simp [Codes.blockBits, Codes.tokenBits, lengthSymbol, distanceSymbol, extraBits,
      lengthClasses, distanceClasses, classIndex, endOfBlock, Bits.ofNat,
      Nat.add_assoc]
  have shorter := Draft.length_bits_ofContent_le .empty [0, 0, 0, 0]
  rw [tokens, bits, Codes.literalBits_fixed (by decide +kernel),
    Codes.literalBits_fixed (by decide +kernel),
    Codes.literalBits_fixed (by decide +kernel),
    Codes.distanceBits_fixed (by decide +kernel), head, literal, length, distance,
    ending] at shorter
  have less : (Draft.ofContent .empty [0, 0, 0, 0]).bits.length < storedSize 4 :=
    Nat.lt_of_le_of_lt shorter (by decide)
  have whole := Encoder.length_whole_le (show (6 : Fin 10) ≠ 0 by decide) (by decide)
    less
  omega

/-- Four zeros fit into four bytes, and the fifth is left out. -/
theorem success_not_always_whole :
    ¬∀ (limit : Nat) (ε : Type) [DeflateEngine ε] (level : Fin 10) (format : Format),
      1 ≤ limit → Sees ε level format limit → ∀ (input packed : Bytes) (room : Nat),
      (deflate (start level format : ε) input room).1 = .ok packed →
      takenBy (deflate (start level format : Recorded ε) input room).2.records =
        input := by
  intro always
  have sees : Sees (Limited 4 Encoder) 6 .deflate 4 :=
    DeflateEngine.sees_limited 4
  obtain ⟨step, next, ran, ended, took⟩ :=
    Encoder.ended_of_length_whole_le (by decide) length_four_zeros_le
  have ran : DeflateEngine.run (start 6 .deflate : Encoder) .finish [0, 0, 0, 0] 4 =
      (.ok step, next) := ran
  have reported : report (start 6 .deflate : Limited 4 Encoder) .finish
      ([0, 0, 0, 0, 0].take 4) (min 1000 4) = (.ok step.report, ⟨next⟩) :=
    Limited.report_of_inner (DeflateEngine.report_of_run ran)
      (Transfer.rest_eq_of_taken took)
  obtain ⟨succeeds, takenEq⟩ := deflate_of_ended_at_once sees reported ended
  have whole := always 4 (Limited 4 Encoder) 6 .deflate (by decide) sees
    [0, 0, 0, 0, 0] step.output 1000 succeeds
  rw [takenEq] at whole
  exact absurd whole (by decide)

end StreamCodec.OneShot
