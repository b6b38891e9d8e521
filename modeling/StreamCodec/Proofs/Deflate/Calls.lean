import StreamCodec.Deflate.Encoder
import StreamCodec.Proofs.Engine.Deflating

namespace StreamCodec.Deflate

namespace Output

/-! How much the output grows with what is appended. -/

def weight (output : Output) : Nat :=
  8 * output.bytes.length + output.carry.length

private theorem length_flatMap_ofByte (bytes : Bytes) :
    (bytes.flatMap Bits.ofByte).length = 8 * bytes.length := by
  induction bytes with
  | nil => rfl
  | cons byte rest induction =>
      simp only [List.flatMap_cons, List.length_append, Bits.length_ofByte,
        induction, List.length_cons]
      omega

private theorem length_pack (bits : Bits) :
    8 * bits.pack.1.length + bits.pack.2.length = bits.length := by
  rw [← length_flatMap_ofByte, ← List.length_append, Bits.flatMap_ofByte_pack]

theorem weight_appendBits (output : Output) (bits : Bits) :
    (output.appendBits bits).weight = output.weight + bits.length := by
  have lengths := length_pack (output.carry ++ bits)
  rw [List.length_append] at lengths
  simp only [appendBits, weight, List.length_append]
  omega

private theorem weight_align_le (output : Output) :
    output.align.weight ≤ output.weight + 7 := by
  have lengths := length_pack output.carry.padded
  have padding : output.carry.padded.length ≤ output.carry.length + 7 := by
    simp only [Bits.padded, List.length_append, List.length_replicate]
    omega
  simp only [align, weight, List.length_append, List.length_nil]
  omega

theorem weight_appendBytes_le (output : Output) (bytes : Bytes) :
    (output.appendBytes bytes).weight ≤
      output.weight + 7 + 8 * bytes.length := by
  have aligned := output.weight_align_le
  simp only [appendBytes, weight, List.length_append] at aligned ⊢
  omega

theorem weight_appendStored_le (output : Output) (last : Bool) (content : Bytes) :
    (output.appendStored last content).weight ≤
      output.weight + storedSize content.length := by
  have head := output.weight_appendBits (last :: Bits.ofNat 2 0)
  have body := (output.appendBits (last :: Bits.ofNat 2 0)).weight_appendBytes_le
    (Bytes.littleEndian 2 content.length ++
      Bytes.littleEndian 2 (blockLimit - content.length) ++ content)
  simp only [List.length_append, Bytes.length_littleEndian, List.length_cons,
    Bits.length_ofNat] at head body
  simp only [appendStored]
  unfold storedSize
  omega

theorem weight_appendBlock_le (output : Output) (level : Fin 10) (last : Bool)
    (window : Block.Window) (content : Bytes) :
    (output.appendBlock level last window content).weight ≤
      output.weight + storedSize content.length := by
  have stored := output.weight_appendStored_le last content
  unfold appendBlock
  split
  · exact stored
  · simp only
    split
    · next less =>
        rw [weight_appendBits, List.length_cons]
        omega
    · exact stored

end Output

namespace Encoder

@[simp] theorem foldl_hold (encoder : Encoder) (input : Bytes) :
    input.foldl hold encoder =
      { encoder with
        held := encoder.held ++ input.toArray
        digest := input.foldl Digest.push encoder.digest } := by
  induction input generalizing encoder with
  | nil => simp
  | cons byte rest induction =>
      rw [List.foldl_cons, induction]
      simp [hold, List.foldl_cons]

@[simp] theorem finishing_writeFull (encoder : Encoder) (content : Bytes) :
    (encoder.writeFull content).finishing = encoder.finishing := by
  fun_induction writeFull encoder content with
  | case1 encoder content more induction => exact induction
  | case2 => rfl

@[simp] theorem finishing_take (encoder : Encoder) (input : Bytes) :
    (encoder.take input).finishing = encoder.finishing := by
  simp only [take, foldl_hold]
  split
  · exact finishing_writeFull _ _
  · rfl

@[simp] theorem finishing_mark (encoder : Encoder) :
    encoder.mark.finishing = encoder.finishing := by
  simp only [mark]
  split <;> rfl

@[simp] theorem finishing_sync (encoder : Encoder) (room : Nat) :
    (encoder.sync room).finishing = encoder.finishing := by
  unfold sync
  split
  · rfl
  · exact finishing_mark encoder

theorem finishing_advance {encoder : Encoder} {flush : Flush}
    (keeps : flush ≠ .finish) (input : Bytes) (room : Nat) :
    (encoder.advance flush input room).finishing = encoder.finishing := by
  cases flush with
  | none => exact finishing_take encoder input
  | sync => exact (finishing_sync _ room).trans (finishing_take encoder input)
  | finish => exact (keeps rfl).elim

theorem finishing_conclude (encoder : Encoder) :
    encoder.conclude.finishing = true := by
  unfold conclude
  split
  · next finishing => exact finishing
  · rfl

def handOver (encoder : Encoder) (synced : Bool) (room : Nat) : Encoder :=
  { encoder with
    synced := synced
    output := { encoder.output with bytes := encoder.output.bytes.drop room } }

/-- What a call does with its input before it hands over what is written. -/
inductive Advances (encoder : Encoder) (flush : Flush) (input : Bytes)
    (room : Nat) : (taken : Bytes) → Encoder → Prop
  | ending (finishing : encoder.finishing = true) (ends : flush = .finish) :
      Advances encoder flush input room [] encoder
  | going (going : encoder.finishing = false) :
      Advances encoder flush input room input
        (encoder.advance flush input room)

/-- The ways a call succeeds. Without room nothing happens. -/
inductive Answers (encoder : Encoder) (flush : Flush) (input : Bytes)
    (room : Nat) : Step input room → Encoder → Prop
  | idle {step : Step input room} (noRoom : room = 0) (idle : step.IsIdle)
      (going : step.status ≠ .streamEnd) :
      Answers encoder flush input room step encoder
  | gives {step : Step input room} {taken : Bytes} {advanced : Encoder}
      (synced : Bool) (roomy : 0 < room)
      (advances : Advances encoder flush input room taken advanced)
      (takenEq : step.taken = taken)
      (output : step.output = advanced.output.bytes.take room)
      (ended_iff : step.status = .streamEnd ↔
        advanced.finishing = true ∧ advanced.output.bytes.drop room = []) :
      Answers encoder flush input room step (advanced.handOver synced room)

private theorem ended_iff_deliver (encoder : Encoder) (flush : Flush) {input : Bytes}
    {consumed : Nat} (room : Nat) (consumed_le : consumed ≤ input.length) :
    (encoder.deliver flush input consumed room consumed_le).1.status =
        .streamEnd ↔
      encoder.finishing = true ∧ encoder.output.bytes.drop room = [] := by
  simp only [deliver]
  split
  · next ended => simpa using ended
  · next going =>
      constructor
      · intro ended
        split at ended <;> cases ended
      · intro ended
        simp [ended.1, ended.2] at going

theorem answers_run {encoder next : Encoder} {flush : Flush} {input : Bytes}
    {room : Nat} {step : Step input room}
    (ran : encoder.run flush input room = (.ok step, next)) :
    Answers encoder flush input room step next := by
  unfold run at ran
  split at ran
  · cases ran
  · next allowed =>
      split at ran
      · next noRoom =>
          cases ran
          exact .idle noRoom ⟨rfl, rfl⟩ Status.noConfusion
      · next nonzero =>
          have roomy := Nat.pos_of_ne_zero nonzero
          split at ran
          · next finishing =>
              cases ran
              have ends : flush = .finish :=
                Decidable.byContradiction fun keeps => allowed ⟨finishing, keeps⟩
              exact .gives _ roomy (.ending finishing ends) rfl rfl
                (ended_iff_deliver encoder flush room (Nat.zero_le _))
          · next going =>
              cases ran
              exact .gives _ roomy (.going (Bool.eq_false_iff.2 going))
                List.take_length rfl
                (ended_iff_deliver _ flush room (Nat.le_refl _))

theorem run_ok (encoder : Encoder) (flush : Flush) (input : Bytes) (room : Nat)
    (allowed : encoder.finishing = true → flush = .finish) :
    ∃ step next, encoder.run flush input room = (.ok step, next) := by
  unfold run
  rw [if_neg fun ⟨finishing, keeps⟩ => keeps (allowed finishing)]
  split
  · exact ⟨_, _, rfl⟩
  · split <;> exact ⟨_, _, rfl⟩

private theorem going_of_keeps {encoder next : Encoder} {flush : Flush} {input : Bytes}
    {room : Nat} {step : Step input room} (going : encoder.finishing = false)
    (keeps : flush ≠ .finish)
    (answers : Answers encoder flush input room step next) :
    next.finishing = false ∧ step.status ≠ .streamEnd := by
  cases answers with
  | idle _ _ notEnded => exact ⟨going, notEnded⟩
  | gives synced _ advances _ _ ended_iff =>
      cases advances with
      | ending finishing => rw [finishing] at going; cases going
      | going =>
          have still := (finishing_advance keeps input room).trans going
          refine ⟨still, fun ended => ?_⟩
          rw [still] at ended_iff
          exact Bool.noConfusion (ended_iff.1 ended).1

theorem going_of_fed {level : Fin 10} {format : Format} {taken given : Bytes}
    {encoder : Encoder}
    (fed : DeflateEngine.Fed level format taken given encoder) :
    encoder.finishing = false := by
  induction fed with
  | start => rfl
  | call fed keeps ran induction =>
      exact (going_of_keeps induction keeps (answers_run ran)).1

/-! How much is still to come of what was taken. -/

def weight (encoder : Encoder) : Nat :=
  encoder.output.weight + 50 * encoder.held.size +
    200 * (!encoder.finishing).toNat

private theorem weight_writeFull_le (encoder : Encoder) (content : Bytes) :
    (encoder.writeFull content).weight ≤
      encoder.output.weight + 50 * content.length +
        200 * (!encoder.finishing).toNat := by
  fun_induction writeFull encoder content with
  | case1 encoder content more induction =>
      have block := encoder.output.weight_appendBlock_le encoder.level false
        encoder.window (content.take blockLimit)
      simp only [write, List.length_drop] at induction ⊢
      unfold storedSize at block
      unfold blockLimit at more induction block ⊢
      rw [List.length_take] at block
      omega
  | case2 encoder content fits =>
      simp only [weight, List.size_toArray]
      exact Nat.le_refl _

private theorem weight_take_le (encoder : Encoder) (input : Bytes) :
    (encoder.take input).weight ≤ encoder.weight + 50 * input.length := by
  simp only [take, foldl_hold]
  split
  · have full := weight_writeFull_le
      { encoder with
        held := #[], digest := input.foldl Digest.push encoder.digest }
      (encoder.held ++ input.toArray).toList
    simp only [Array.toList_append, List.length_append, Array.length_toList] at full
    simp only [weight, Array.toList_append]
    simp only [weight] at full
    omega
  · simp only [weight, Array.size_append, List.size_toArray]
    omega

private theorem length_trailer_le (digest : Digest) : digest.trailer.length ≤ 8 := by
  cases digest with
  | unchecked => exact Nat.zero_le _
  | adler =>
      simp [Digest.trailer, Digest.checkBytes, Digest.sizeBytes]
  | crc => simp [Digest.trailer, Digest.checkBytes, Digest.sizeBytes]

private theorem weight_conclude_le (encoder : Encoder) :
    encoder.conclude.weight ≤ encoder.weight := by
  unfold conclude
  split
  · exact Nat.le_refl _
  · next going =>
      have block := encoder.output.weight_appendBlock_le encoder.level true
        encoder.window encoder.held.toList
      have trailer := (encoder.output.appendBlock encoder.level true
        encoder.window encoder.held.toList).weight_appendBytes_le
        encoder.digest.trailer
      have short := length_trailer_le encoder.digest
      unfold storedSize at block
      rw [Array.length_toList] at block
      simp only [weight, writeHeld, write, going, Array.size_empty,
        Bool.not_false, Bool.not_true, Bool.toNat_true, Bool.toNat_false]
      omega

def markerWeight : Flush → Nat
  | .sync => storedSize 0
  | _ => 0

private theorem weight_mark_le (encoder : Encoder) :
    encoder.mark.weight ≤ encoder.weight + markerWeight .sync := by
  simp only [mark]
  split
  · have marker := encoder.output.weight_appendStored_le false []
    simp only [weight, markerWeight, List.length_nil] at marker ⊢
    omega
  · next holds =>
      have held := encoder.output.weight_appendBlock_le encoder.level false
        encoder.window encoder.held.toList
      have marker := (encoder.output.appendBlock encoder.level false
        encoder.window encoder.held.toList).weight_appendStored_le false []
      have nonempty : encoder.held.size ≠ 0 := by simpa using holds
      rw [Array.length_toList] at held
      simp only [weight, markerWeight, writeHeld, write, Array.size_empty,
        List.length_nil] at marker ⊢
      unfold storedSize at held marker ⊢
      omega

theorem weight_advance_le (encoder : Encoder) (flush : Flush) (input : Bytes)
    (room : Nat) :
    (encoder.advance flush input room).weight ≤
      encoder.weight + 50 * input.length + markerWeight flush := by
  have takes := encoder.weight_take_le input
  cases flush with
  | none => exact takes
  | sync =>
      simp only [advance, sync]
      split
      · exact Nat.le_add_right_of_le takes
      · have marks := (encoder.take input).weight_mark_le
        omega
  | finish => exact Nat.le_trans (weight_conclude_le _) takes

private theorem weight_handOver (encoder : Encoder) (synced : Bool) (room : Nat) :
    8 * (encoder.output.bytes.take room).length +
      (encoder.handOver synced room).weight = encoder.weight := by
  simp only [weight, handOver, Output.weight, List.length_take, List.length_drop]
  omega

theorem weight_of_answers {encoder next : Encoder} {flush : Flush}
    {input : Bytes} {room : Nat} {step : Step input room}
    (answers : Answers encoder flush input room step next) :
    8 * step.output.length + next.weight ≤
      encoder.weight + 50 * step.taken.length + markerWeight flush := by
  cases answers with
  | idle _ idle _ =>
      rw [idle.2, List.length_nil]
      omega
  | gives synced _ advances takenEq output =>
      rw [output, weight_handOver, takenEq]
      cases advances with
      | ending => omega
      | going => exact encoder.weight_advance_le flush input room

private theorem length_le_of_mayGive {encoder : Encoder} {taken given : Bytes}
    (mayGive : DeflateEngine.MayGive encoder taken given) :
    given.length ≤ encoder.weight + 50 * taken.length := by
  induction mayGive with
  | nothing => exact Nat.zero_le _
  | feed ran later induction =>
      have balance := weight_of_answers (answers_run ran)
      simp only [List.length_append, markerWeight] at balance ⊢
      omega
  | finish ran going later induction =>
      have balance := weight_of_answers (answers_run ran)
      simp only [List.length_append, markerWeight] at balance ⊢
      omega

private theorem moves_of_answers {encoder next : Encoder} {flush : Flush}
    {input : Bytes} {room : Nat} {step : Step input room}
    (going : encoder.finishing = false) (nonempty : input ≠ []) (roomy : 0 < room)
    (answers : Answers encoder flush input room step next) : ¬step.IsIdle := by
  intro idle
  cases answers with
  | idle noRoom => omega
  | gives synced _ advances takenEq =>
      cases advances with
      | ending finishing => rw [going] at finishing; cases finishing
      | going =>
          rw [Transfer.taken_of_isIdle idle] at takenEq
          exact nonempty takenEq.symm

theorem ends_of_answers {encoder next : Encoder} {input : Bytes} {room : Nat}
    {step : Step input room} (roomy : 0 < room)
    (answers : Answers encoder .finish input room step next) :
    step.status = .streamEnd ∨ step.output ≠ [] := by
  cases answers with
  | idle noRoom => omega
  | @gives _ advanced synced _ advances _ output ended_iff =>
      have finishing : advanced.finishing = true := by
        cases advances with
        | ending finishing => exact finishing
        | going => exact finishing_conclude _
      rcases Decidable.em (advanced.output.bytes.drop room = []) with
        handedOver | more
      · exact .inl (ended_iff.2 ⟨finishing, handedOver⟩)
      · refine .inr fun nothing => ?_
        rw [output, List.take_eq_nil_iff] at nothing
        rcases nothing with noRoom | nothing
        · omega
        · rw [nothing, List.drop_nil] at more
          exact more rfl

theorem writes_of_streams {level : Fin 10} {format : Format} {grammar : Grammar}
    (streams : DeflateEngine.Streams Encoder level format grammar) :
    DeflateEngine.Writes Encoder level format grammar where
  toStreams := streams
  feeds {encoder taken given} flush input room fed keeps := by
    have going := going_of_fed fed
    have allowed : encoder.finishing = true → flush = .finish := by
      rw [going]
      exact Bool.noConfusion
    obtain ⟨step, next, ran⟩ := run_ok encoder flush input room allowed
    exact ⟨step, next, ran, (going_of_keeps going keeps (answers_run ran)).2⟩
  moves fed ran nonempty roomy :=
    moves_of_answers (going_of_fed fed) nonempty roomy (answers_run ran)
  finishes {encoder taken given} room ending roomy := by
    obtain ⟨step, next, ran⟩ := run_ok encoder .finish [] room fun _ => rfl
    exact ⟨step, next, ran, ends_of_answers roomy (answers_run ran)⟩
  bounded {encoder taken given} most fed := by
    refine ⟨encoder.weight + 50 * most, fun taken given mayGive within => ?_⟩
    have bound := length_le_of_mayGive mayGive
    omega

end Encoder

end StreamCodec.Deflate
