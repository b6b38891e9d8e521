import StreamCodec.Proofs.Deflate.Calls
import StreamCodec.Proofs.Inflate.Fields

namespace StreamCodec.Deflate

open Inflate.Decoder (Absorbs AtBlock storedBlock)

/-! At level zero content is stored. The decoder gets back what was taken. -/

private theorem Output.appendBytes_of_aligned {output : Output}
    (aligned : output.carry = []) (bytes : Bytes) :
    output.appendBytes bytes = ⟨output.bytes ++ bytes, []⟩ := by
  have nothing : Bits.pack (Bits.padded []) = ([], []) := by decide
  simp only [appendBytes, align, aligned, nothing, List.append_nil]

private theorem Output.appendStored_of_aligned {output : Output}
    (aligned : output.carry = []) (last : Bool) (content : Bytes) :
    output.appendStored last content =
      ⟨output.bytes ++ storedBlock last content, []⟩ := by
  have head : Bits.pack (last :: Bits.ofNat 2 0) = ([], [last, false, false]) := by
    cases last <;> decide
  have filled : (Bits.pack (Bits.padded [last, false, false])).1 =
      [if last then 1 else 0] := by
    cases last <;> decide
  simp only [appendStored, appendBits, aligned, List.nil_append, head, appendBytes,
    align, filled, List.append_nil, storedBlock, List.append_assoc]

namespace Encoder

/-- What was given, with what is still to be delivered, reads as this content, and a
block comes next. -/
structure Stores (encoder : Encoder) (format : Format) (given content : Bytes) :
    Prop where
  level_eq : encoder.level = 0
  aligned : encoder.output.carry = []
  reads : ∃ decoder, Absorbs (Inflate.Decoder.start format) []
      (given ++ encoder.output.bytes) decoder content.reverse ∧
    decoder.AtBlock format content

variable {encoder : Encoder} {format : Format} {given content : Bytes}

theorem stores_start (format : Format) : (start 0 format).Stores format [] [] :=
  ⟨rfl, rfl, Inflate.Decoder.absorbs_header 0 format⟩

theorem Stores.appendBlock (stores : encoder.Stores format given content)
    (last : Bool) (window : Block.Window) {more : Bytes}
    (fits : more.length ≤ blockLimit) :
    encoder.output.appendBlock encoder.level last window more =
        ⟨encoder.output.bytes ++ storedBlock last more, []⟩ ∧
      ∃ recorded : Inflate.Decoder,
        Absorbs (Inflate.Decoder.start format) []
            (given ++ (encoder.output.bytes ++ storedBlock last more))
            recorded.closeBlock (content ++ more).reverse ∧
          recorded.last = last ∧
          recorded.digest = Digest.ofBytes format (content ++ more) := by
  obtain ⟨decoder, absorbs, atBlock⟩ := stores.reads
  obtain ⟨recorded, block, lastEq, digestEq⟩ :=
    atBlock.absorbs_storedBlock last fits content.reverse
  refine ⟨?_, recorded, ?_, lastEq, digestEq⟩
  · rw [Output.appendBlock, if_pos stores.level_eq,
      Output.appendStored_of_aligned stores.aligned]
  · rw [← List.append_assoc, List.reverse_append]
    exact absorbs.trans block

theorem Stores.write (stores : encoder.Stores format given content)
    {more : Bytes} (fits : more.length ≤ blockLimit) :
    (encoder.write false more).Stores format given (content ++ more) := by
  obtain ⟨outputEq, recorded, absorbs, notLast, digestEq⟩ :=
    stores.appendBlock false encoder.window fits
  refine ⟨stores.level_eq, ?_, recorded.closeBlock, ?_, ?_⟩
  · simp only [Encoder.write, outputEq]
  · simp only [Encoder.write, outputEq]
    exact absorbs
  · exact Inflate.Decoder.atBlock_closeBlock notLast digestEq

theorem Stores.writeFull (stores : encoder.Stores format given content)
    (more : Bytes) :
    ∃ full rest, more = full ++ rest ∧
      (encoder.writeFull more).held = rest.toArray ∧ rest.length ≤ blockLimit ∧
      (encoder.writeFull more).digest = encoder.digest ∧
      (encoder.writeFull more).Stores format given (content ++ full) := by
  induction lengthEq : more.length using Nat.strongRecOn
    generalizing encoder content more with
  | ind length induction =>
      rw [Encoder.writeFull]
      split
      · next long =>
          have fits : (more.take blockLimit).length ≤ blockLimit :=
            List.length_take_le _ _
          have shorter : (more.drop blockLimit).length < length := by
            rw [List.length_drop]
            unfold blockLimit at long ⊢
            omega
          obtain ⟨full, rest, moreEq, heldEq, restFits, digestEq, stored⟩ :=
            induction _ shorter (stores.write fits) _ rfl
          refine ⟨more.take blockLimit ++ full, rest, ?_, heldEq, restFits,
            digestEq, ?_⟩
          · rw [List.append_assoc, ← moreEq, List.take_append_drop]
          · rw [← List.append_assoc]
            exact stored
      · next short =>
          refine ⟨[], more, rfl, rfl, Nat.le_of_not_lt short, rfl, ?_⟩
          rw [List.append_nil]
          exact ⟨stores.level_eq, stores.aligned, stores.reads⟩

/-- The stream is still open. Behind what is stored comes what is held. -/
structure Tracks (encoder : Encoder) (format : Format) (given taken : Bytes) :
    Prop where
  stores : ∃ content, encoder.Stores format given content ∧
    taken = content ++ encoder.held.toList
  fits : encoder.held.size ≤ blockLimit
  digest_eq : encoder.digest = Digest.ofBytes format taken

variable {taken : Bytes}

theorem tracks_start (format : Format) : (start 0 format).Tracks format [] [] :=
  ⟨⟨[], stores_start format, rfl⟩, Nat.zero_le _, rfl⟩

theorem Tracks.take (tracks : encoder.Tracks format given taken) (input : Bytes) :
    (encoder.take input).Tracks format given (taken ++ input) := by
  obtain ⟨content, stores, takenEq⟩ := tracks.stores
  have digestEq : input.foldl Digest.push encoder.digest =
      Digest.ofBytes format (taken ++ input) := by
    rw [Digest.ofBytes_append, tracks.digest_eq]
  simp only [Encoder.take, foldl_hold]
  split
  · let emptied : Encoder :=
      { encoder with
        held := #[], digest := input.foldl Digest.push encoder.digest }
    have emptiedStores : emptied.Stores format given content :=
      ⟨stores.level_eq, stores.aligned, stores.reads⟩
    obtain ⟨full, rest, moreEq, heldEq, restFits, digestSame, stored⟩ :=
      emptiedStores.writeFull (encoder.held ++ input.toArray).toList
    refine ⟨⟨content ++ full, stored, ?_⟩, ?_, digestSame.trans digestEq⟩
    · rw [heldEq, List.append_assoc, ← moreEq, takenEq]
      simp
    · rw [heldEq]
      simpa using restFits
  · next short =>
      refine ⟨⟨content, ⟨stores.level_eq, stores.aligned, stores.reads⟩, ?_⟩,
        Nat.le_of_not_lt short, digestEq⟩
      rw [takenEq]
      simp

theorem Tracks.writeHeld (tracks : encoder.Tracks format given taken) :
    (encoder.writeHeld false).Tracks format given taken := by
  obtain ⟨content, stores, takenEq⟩ := tracks.stores
  let emptied : Encoder := { encoder with held := #[] }
  have emptiedStores : emptied.Stores format given content :=
    ⟨stores.level_eq, stores.aligned, stores.reads⟩
  have fits : encoder.held.toList.length ≤ blockLimit := tracks.fits
  refine ⟨⟨_, emptiedStores.write fits, ?_⟩, Nat.zero_le _, tracks.digest_eq⟩
  rw [← takenEq]
  exact (List.append_nil taken).symm

theorem Tracks.mark (tracks : encoder.Tracks format given taken) :
    encoder.mark.Tracks format given taken := by
  have marked {encoder : Encoder} (tracks : encoder.Tracks format given taken) :
      Tracks { encoder with output := encoder.output.appendStored false [] }
        format given taken := by
    obtain ⟨content, stores, takenEq⟩ := tracks.stores
    have empty : ([] : Bytes).length ≤ blockLimit := Nat.zero_le _
    obtain ⟨_, recorded, absorbs, notLast, digestEq⟩ :=
      stores.appendBlock false encoder.window empty
    rw [List.append_nil] at absorbs digestEq
    rw [Output.appendStored_of_aligned stores.aligned]
    exact ⟨⟨content, ⟨stores.level_eq, rfl, recorded.closeBlock, absorbs,
      Inflate.Decoder.atBlock_closeBlock notLast digestEq⟩, takenEq⟩, tracks.fits,
      tracks.digest_eq⟩
  simp only [Encoder.mark]
  split
  · exact marked tracks
  · exact marked tracks.writeHeld

theorem Tracks.advance (tracks : encoder.Tracks format given taken)
    {flush : Flush} (keeps : flush ≠ .finish) (input : Bytes) (room : Nat) :
    (encoder.advance flush input room).Tracks format given (taken ++ input) := by
  have took := tracks.take input
  cases flush with
  | none => exact took
  | sync =>
      simp only [Encoder.advance, Encoder.sync]
      split
      · exact took
      · exact took.mark
  | finish => exact (keeps rfl).elim

theorem reads_handOver {given bytes : Bytes} (room : Nat) :
    given ++ bytes.take room ++ bytes.drop room = given ++ bytes := by
  rw [List.append_assoc, List.take_append_drop]

theorem Tracks.handOver (tracks : encoder.Tracks format given taken)
    (synced : Bool) (room : Nat) :
    (encoder.handOver synced room).Tracks format
      (given ++ encoder.output.bytes.take room) taken := by
  obtain ⟨content, stores, takenEq⟩ := tracks.stores
  refine ⟨⟨content, ⟨stores.level_eq, stores.aligned, ?_⟩, takenEq⟩, tracks.fits,
    tracks.digest_eq⟩
  rw [Encoder.handOver, reads_handOver]
  exact stores.reads

/-- The whole stream is written, and some of it may still be delivered. -/
structure Concluded (encoder : Encoder) (format : Format) (given taken : Bytes) :
    Prop where
  finishing : encoder.finishing = true
  reads : ∃ decoder, Absorbs (Inflate.Decoder.start format) []
      (given ++ encoder.output.bytes) decoder taken.reverse ∧
    decoder.phase = .finished

theorem Tracks.conclude (tracks : encoder.Tracks format given taken)
    (going : encoder.finishing = false) :
    encoder.conclude.Concluded format given taken := by
  refine ⟨finishing_conclude encoder, ?_⟩
  obtain ⟨content, stores, takenEq⟩ := tracks.stores
  have fits : encoder.held.toList.length ≤ blockLimit := tracks.fits
  obtain ⟨outputEq, recorded, absorbs, final, digestEq⟩ :=
    stores.appendBlock true encoder.window fits
  rw [← takenEq, ← tracks.digest_eq] at digestEq
  rw [← takenEq] at absorbs
  obtain ⟨finished, trailer, finishedEq⟩ :=
    Inflate.Decoder.absorbs_trailer final taken.reverse
  rw [digestEq] at trailer
  have concludedEq : encoder.conclude.output.bytes =
      encoder.output.bytes ++ storedBlock true encoder.held.toList ++
        encoder.digest.trailer := by
    have notFinishing : ¬encoder.finishing = true := by simp [going]
    simp only [Encoder.conclude, if_neg notFinishing, Encoder.writeHeld,
      Encoder.write, outputEq]
    rw [Output.appendBytes_of_aligned rfl]
  rw [concludedEq, ← List.append_assoc]
  exact ⟨finished, absorbs.trans trailer, finishedEq⟩

theorem Concluded.handOver (concluded : encoder.Concluded format given taken)
    (synced : Bool) (room : Nat) :
    (encoder.handOver synced room).Concluded format
      (given ++ encoder.output.bytes.take room) taken := by
  refine ⟨concluded.finishing, ?_⟩
  rw [Encoder.handOver, reads_handOver]
  exact concluded.reads

theorem tracks_of_fed
    (fed : DeflateEngine.Fed 0 format taken given encoder) :
    encoder.Tracks format given taken := by
  induction fed with
  | start => exact tracks_start format
  | call fed keeps ran induction =>
      cases answers_run ran with
      | idle _ idle =>
          rwa [Transfer.taken_of_isIdle idle, idle.2, List.append_nil,
            List.append_nil]
      | gives synced _ advances takenEq output =>
          rw [takenEq, output]
          cases advances with
          | ending finishing =>
              rw [going_of_fed fed] at finishing
              cases finishing
          | going =>
              exact (induction.advance keeps _ _).handOver synced _

private theorem concluded_of_advances {flush : Flush} {input more : Bytes} {room : Nat}
    {advanced : Encoder} (ends : flush = .finish)
    (advances : Advances encoder flush input room more advanced)
    (state : encoder.finishing = false ∧ encoder.Tracks format given taken ∨
      encoder.Concluded format given taken) :
    advanced.Concluded format given (taken ++ more) := by
  subst ends
  cases advances with
  | ending finishing =>
      rcases state with ⟨going, _⟩ | concluded
      · rw [finishing] at going
        cases going
      · rwa [List.append_nil]
  | going going =>
      rcases state with ⟨_, tracks⟩ | concluded
      · exact (tracks.take input).conclude ((finishing_take _ _).trans going)
      · rw [concluded.finishing] at going
        cases going

private theorem state_of_ending
    (ending : DeflateEngine.Ending 0 format taken given encoder) :
    encoder.finishing = false ∧ encoder.Tracks format given taken ∨
      encoder.Concluded format given taken := by
  induction ending with
  | of_fed fed => exact .inl ⟨going_of_fed fed, tracks_of_fed fed⟩
  | call ending ran going induction =>
      cases answers_run ran with
      | idle _ idle =>
          rwa [Transfer.taken_of_isIdle idle, idle.2, List.append_nil,
            List.append_nil]
      | gives synced _ advances takenEq output =>
          rw [takenEq, output]
          have concluded := concluded_of_advances rfl advances induction
          exact .inr (concluded.handOver synced _)

end Encoder

/-- At level zero the decoder understands the encoder. -/
theorem streams_stored (format : Format) :
    DeflateEngine.Streams Encoder 0 format (Inflate.grammar format) where
  ended {encoder next taken given input room step} ending ran ended := by
    cases Encoder.answers_run ran with
    | idle _ _ going => exact (going ended).elim
    | @gives _ advanced synced _ advances takenEq output ended_iff =>
        have concluded := Encoder.concluded_of_advances rfl advances
          (Encoder.state_of_ending ending)
        obtain ⟨decoder, absorbs, finished⟩ := concluded.reads
        have handedOver : step.output = advanced.output.bytes := by
          rw [output]
          exact List.take_of_length_le
            (List.drop_eq_nil_iff.1 (ended_iff.1 ended).2)
        have isStream := absorbs.isStream finished
        rwa [List.reverse_reverse, ← handedOver, ← takenEq] at isStream

theorem writes_stored (format : Format) :
    DeflateEngine.Writes Encoder 0 format (Inflate.grammar format) :=
  Encoder.writes_of_streams (streams_stored format)

end StreamCodec.Deflate
