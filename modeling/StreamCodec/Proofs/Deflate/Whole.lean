import StreamCodec.Proofs.Deflate.Storing
import StreamCodec.Proofs.Engine.Concluding

namespace StreamCodec.Deflate

open DeflateEngine (Concluding Concludes Compact streamBound streamBound_eq)

namespace Encoder

/-! An encoder that gets all of the content at once writes the whole stream in its
first call with room and then only hands it over. -/

def whole (level : Fin 10) (format : Format) (content : Bytes) : Bytes :=
  ((start level format).take content).conclude.output.bytes

variable {level : Fin 10} {format : Format} {content rest given : Bytes}
  {encoder next : Encoder} {room : Nat} {step : Step rest room}

def growth (encoder : Encoder) : Nat :=
  1024 * encoder.output.weight + 8193 * encoder.held.size

private theorem growth_writeFull_le (encoder : Encoder) (content : Bytes) :
    (encoder.writeFull content).growth ≤
      1024 * encoder.output.weight + 8193 * content.length := by
  fun_induction writeFull encoder content with
  | case1 encoder content more induction =>
      have block := encoder.output.weight_appendBlock_le encoder.level false
        encoder.window (content.take blockLimit)
      simp only [write, List.length_drop] at induction ⊢
      unfold storedSize at block
      unfold blockLimit at more induction block ⊢
      rw [List.length_take] at block
      omega
  | case2 encoder content fits =>
      simp only [growth, List.size_toArray]
      exact Nat.le_refl _

private theorem growth_take_le (encoder : Encoder) (input : Bytes) :
    (encoder.take input).growth ≤ encoder.growth + 8193 * input.length := by
  simp only [take, foldl_hold]
  split
  · have full := growth_writeFull_le
      { encoder with
        held := #[], digest := input.foldl Digest.push encoder.digest }
      (encoder.held ++ input.toArray).toList
    simp only [Array.toList_append, List.length_append, Array.length_toList] at full
    simp only [growth, Array.toList_append] at full ⊢
    omega
  · simp only [growth, Array.size_append, List.size_toArray]
    omega

private theorem weight_conclude_output_le (going : encoder.finishing = false) :
    encoder.conclude.output.weight ≤
      encoder.output.weight + storedSize encoder.held.size + 7 +
        8 * encoder.digest.trailer.length := by
  have notFinishing : ¬encoder.finishing = true := by simp [going]
  have block := encoder.output.weight_appendBlock_le encoder.level true
    encoder.window encoder.held.toList
  have trailer := (encoder.output.appendBlock encoder.level true
    encoder.window encoder.held.toList).weight_appendBytes_le encoder.digest.trailer
  rw [Array.length_toList] at block
  simp only [conclude, if_neg notFinishing, writeHeld, write]
  omega

@[simp] theorem digest_writeFull (encoder : Encoder) (content : Bytes) :
    (encoder.writeFull content).digest = encoder.digest := by
  fun_induction writeFull encoder content with
  | case1 encoder content more induction => exact induction
  | case2 => rfl

private theorem digest_take (encoder : Encoder) (input : Bytes) :
    (encoder.take input).digest = input.foldl Digest.push encoder.digest := by
  simp only [take, foldl_hold]
  split
  · exact digest_writeFull _ _
  · rfl

theorem length_trailer_foldl (digest : Digest) (bytes : Bytes) :
    (bytes.foldl Digest.push digest).trailer.length = digest.trailer.length := by
  induction bytes generalizing digest with
  | nil => rfl
  | cons byte rest induction =>
      rw [List.foldl_cons, induction]
      cases digest <;>
        simp [Digest.push, Digest.trailer, Digest.checkBytes, Digest.sizeBytes]

private theorem length_trailer_start (format : Format) :
    (Digest.start format).trailer.length = format.trailerLength := by
  cases format <;> rfl

private theorem growth_start (level : Fin 10) (format : Format) :
    (start level format).growth = 8192 * format.headerLength := by
  simp only [growth, start, Output.weight, length_header, List.length_nil,
    Array.size_empty]
  omega

theorem length_whole_lt (level : Fin 10) (format : Format) (content : Bytes) :
    (whole level format content).length < streamBound format content.length := by
  have grown := (start level format).growth_take_le content
  have concluded := weight_conclude_output_le
    ((finishing_take (start level format) content).trans rfl)
  have trailer : ((start level format).take content).digest.trailer.length =
      format.trailerLength := by
    rw [digest_take, length_trailer_foldl]
    exact length_trailer_start format
  rw [growth_start] at grown
  rw [trailer] at concluded
  simp only [growth, Output.weight, storedSize] at grown concluded
  simp only [whole, streamBound_eq, Format.wrapperLength, boundSlack]
  omega

inductive Awaits (level : Fin 10) (format : Format) (content : Bytes) :
    (rest given : Bytes) → Encoder → Prop
  | content : Awaits level format content content [] (start level format)
  | handOver {encoder : Encoder} {given : Bytes}
      (finishing : encoder.finishing = true) (more : encoder.output.bytes ≠ [])
      (stream : given ++ encoder.output.bytes = whole level format content) :
      Awaits level format content [] given encoder

theorem Awaits.advance {flush : Flush} {taken : Bytes} {advanced : Encoder}
    (awaits : Awaits level format content rest given encoder)
    (ends : flush = .finish)
    (advances : Advances encoder flush rest room taken advanced) :
    advanced.finishing = true ∧ taken = rest ∧
      given ++ advanced.output.bytes = whole level format content := by
  subst ends
  cases advances with
  | ending finishing =>
      cases awaits with
      | content => cases finishing
      | handOver _ _ stream => exact ⟨finishing, rfl, stream⟩
  | going going =>
      cases awaits with
      | content => exact ⟨finishing_conclude _, rfl, rfl⟩
      | handOver finishing =>
          rw [finishing] at going
          cases going

theorem awaits_of_concluding
    (concluding : Concluding level format content rest given encoder) :
    Awaits level format content rest given encoder := by
  induction concluding with
  | start => exact .content
  | @call encoder next rest given room step concluding ran going induction =>
      cases answers_run ran with
      | idle _ idle =>
          rw [idle.2, List.append_nil, Transfer.rest, idle.1, List.drop_zero]
          exact induction
      | @gives _ advanced synced _ advances takenEq output ended_iff =>
          obtain ⟨finishing, allTaken, stream⟩ := induction.advance rfl advances
          rw [Transfer.rest_eq_of_taken (takenEq.trans allTaken), output]
          refine .handOver finishing ?_ ?_
          · exact fun handedOver => going (ended_iff.2 ⟨finishing, handedOver⟩)
          · rw [handOver, reads_handOver]
            exact stream

theorem Awaits.ended (awaits : Awaits level format content rest given encoder)
    (ran : encoder.run .finish rest room = (.ok step, next))
    (ended : step.status = .streamEnd) :
    step.rest = [] ∧ given ++ step.output = whole level format content := by
  cases answers_run ran with
  | idle _ _ going => exact (going ended).elim
  | @gives _ advanced synced _ advances takenEq output ended_iff =>
      obtain ⟨_, allTaken, stream⟩ := awaits.advance rfl advances
      refine ⟨Transfer.rest_eq_of_taken (takenEq.trans allTaken), ?_⟩
      rw [output, List.take_of_length_le
        (List.drop_eq_nil_iff.1 (ended_iff.1 ended).2)]
      exact stream

end Encoder

theorem compact_encoder (level : Fin 10) (format : Format) (content : Bytes) :
    Compact Encoder level format content where
  succeeds {encoder rest given} room _ :=
    Encoder.run_ok encoder .finish rest room fun _ => rfl
  stuck {encoder next rest given room step} _ ran going idle := by
    rcases Nat.eq_zero_or_pos room with full | roomy
    · exact full
    · rcases Encoder.ends_of_answers roomy (Encoder.answers_run ran) with
        ended | gives
      · exact (going ended).elim
      · exact (gives idle.2).elim
  ended_le completed := by
    obtain ⟨concluding, ran, ended⟩ := completed
    rw [((Encoder.awaits_of_concluding concluding).ended ran ended).2]
    exact Nat.le_of_lt (Encoder.length_whole_lt level format content)
  going_lt {encoder rest given} concluding := by
    have bound := Encoder.length_whole_lt level format content
    cases Encoder.awaits_of_concluding concluding with
    | content => exact Nat.zero_lt_of_lt bound
    | handOver _ _ stream =>
        rw [← stream, List.length_append] at bound
        omega

theorem concludes_stored (format : Format) (content : Bytes) :
    Concludes Encoder 0 format (Inflate.grammar format) content where
  toStreams := streams_stored format
  takesAll concluding ran ended :=
    ((Encoder.awaits_of_concluding concluding).ended ran ended).1

end StreamCodec.Deflate
