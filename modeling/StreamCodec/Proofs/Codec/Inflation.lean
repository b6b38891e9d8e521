import StreamCodec.Proofs.Codec.Independence
import StreamCodec.Proofs.Engine.Inflating

namespace StreamCodec

/-! What one-shot decompression answers follows from what the bytes mean and from
how much room there is. -/

namespace OneShot

inductive Answers (length capacity : Nat) (meaning : Meaning) :
    Except CodecError Bytes → Prop
  | content (complete : meaning.verdict = .complete)
      (fits : meaning.content.length ≤ capacity) :
      Answers length capacity meaning (.ok meaning.content)
  | fault (faulty : meaning.verdict = .faulty)
      (fits : meaning.content.length ≤ capacity) (words : Option String) :
      Answers length capacity meaning (.error (.corruptInput (.inflate words)))
  | truncated (unfinished : meaning.verdict = .unfinished)
      (fits : meaning.content.length < capacity) :
      Answers length capacity meaning
        (.error (.corruptInput (.truncated length length)))
  /-- The room is used up. It may be just enough for an unfinished stream. -/
  | full (used : capacity ≤ meaning.content.length)
      (more : meaning.verdict = .complete →
        capacity < meaning.content.length) :
      Answers length capacity meaning
        (.error (.bufferTooSmall codecName length capacity))

namespace Answers

variable {length capacity : Nat} {meaning : Meaning}
  {answer : Except CodecError Bytes}

theorem ok_of_complete (answers : Answers length capacity meaning answer)
    (complete : meaning.verdict = .complete)
    (fits : meaning.content.length ≤ capacity) : answer = .ok meaning.content := by
  cases answers with
  | content => rfl
  | fault faulty => rw [complete] at faulty; cases faulty
  | truncated unfinished => rw [complete] at unfinished; cases unfinished
  | full used more =>
      have less := more complete
      omega

theorem tooSmall_of_complete (answers : Answers length capacity meaning answer)
    (complete : meaning.verdict = .complete)
    (exceeds : capacity < meaning.content.length) :
    answer = .error (.bufferTooSmall codecName length capacity) := by
  cases answers with
  | content _ fits => omega
  | fault faulty => rw [complete] at faulty; cases faulty
  | truncated unfinished => rw [complete] at unfinished; cases unfinished
  | full => rfl

theorem meaning_of_ok {content : Bytes}
    (answers : Answers length capacity meaning (.ok content)) :
    meaning = ⟨content, .complete⟩ := by
  cases answers with
  | content complete => rw [← complete]

theorem corrupt_of_not_complete
    (answers : Answers length capacity meaning answer)
    (notComplete : meaning.verdict ≠ .complete)
    (fits : meaning.content.length < capacity) :
    ∃ corruption, answer = .error (.corruptInput corruption) := by
  cases answers with
  | content complete => exact absurd complete notComplete
  | fault _ _ words => exact ⟨_, rfl⟩
  | truncated => exact ⟨_, rfl⟩
  | full used => omega

theorem settled_or_tooSmall (answers : Answers length capacity meaning answer) :
    (∃ content, answer = .ok content ∧ content.length ≤ capacity) ∨
      answer = .error (.bufferTooSmall codecName length capacity) ∨
        ∃ corruption, answer = .error (.corruptInput corruption) := by
  cases answers with
  | content complete fits => exact .inl ⟨_, rfl, fits⟩
  | fault => exact .inr (.inr ⟨_, rfl⟩)
  | truncated => exact .inr (.inr ⟨_, rfl⟩)
  | full => exact .inr (.inl rfl)

theorem ne_tooSmall_of_fits (answers : Answers length capacity meaning answer)
    (fits : meaning.content.length < capacity) :
    answer ≠ .error (.bufferTooSmall codecName length capacity) := by
  rintro rfl
  cases answers with
  | full used => omega

theorem ok_of_larger {larger : Nat} {content : Bytes}
    (answers : Answers length capacity meaning (.ok content))
    (later : Answers length larger meaning answer) (le : capacity ≤ larger) :
    answer = .ok content := by
  cases answers with
  | content complete fits => exact later.ok_of_complete complete (Nat.le_trans fits le)

theorem corrupt_of_larger {larger : Nat} {corruption : Corruption}
    (answers : Answers length capacity meaning (.error (.corruptInput corruption)))
    (later : Answers length larger meaning answer) (lt : capacity < larger) :
    ∃ corruption, answer = .error (.corruptInput corruption) := by
  cases answers with
  | fault faulty fits =>
      apply later.corrupt_of_not_complete ?_ (Nat.lt_of_le_of_lt fits lt)
      rw [faulty]
      exact Verdict.noConfusion
  | truncated unfinished fits =>
      apply later.corrupt_of_not_complete ?_ (Nat.lt_trans fits lt)
      rw [unfinished]
      exact Verdict.noConfusion

theorem truncated_of_unfinished (answers : Answers length capacity meaning answer)
    (unfinished : meaning.verdict = .unfinished)
    (fits : meaning.content.length < capacity) :
    answer = .error (.corruptInput (.truncated length length)) := by
  cases answers with
  | content complete => rw [unfinished] at complete; cases complete
  | fault faulty => rw [unfinished] at faulty; cases faulty
  | truncated => rfl
  | full used => omega

theorem tooSmall_of_unfinished (answers : Answers length capacity meaning answer)
    (unfinished : meaning.verdict = .unfinished)
    (used : capacity ≤ meaning.content.length) :
    answer = .error (.bufferTooSmall codecName length capacity) := by
  cases answers with
  | content complete => rw [unfinished] at complete; cases complete
  | fault faulty => rw [unfinished] at faulty; cases faulty
  | truncated _ fits => omega
  | full => rfl

end Answers

section

variable {ι : Type} [InflateEngine ι] {format : Format} {grammar : Grammar}
  (follows : InflateEngine.Follows ι format grammar) {length capacity room : Nat}
  {engine next : ι} {consumed written rest : Bytes}
  (reached : InflateEngine.Reached format consumed written engine)

include follows reached

private theorem answers_of_error {flush : Flush} {words : Option String}
    (ran : InflateEngine.run engine flush rest room = (.error words, next))
    (capacityEq : capacity = written.length + room) :
    Answers length capacity (grammar.read (consumed ++ rest))
      (.error (.corruptInput (.inflate words))) := by
  obtain ⟨_, failed⟩ := follows.plain_of_error reached ran
  obtain ⟨faulty, fits⟩ := follows.failed reached failed
  rw [← capacityEq] at fits
  exact .fault faulty fits words

variable {flush : Flush} {step : Step rest room}
  (ran : InflateEngine.run engine flush rest room = (.ok step, next))

include ran

private theorem answers_of_ended (ended : step.status = .streamEnd)
    (capacityEq : capacity = written.length + room) :
    Answers length capacity (grammar.read (consumed ++ rest))
      (.ok (written ++ step.output)) := by
  obtain ⟨_, _, plainRan, ended_iff⟩ := follows.plain_of_ok reached ran
  have isStream := follows.ended reached plainRan (ended_iff.2 ended)
  have readEq : grammar.read (consumed ++ rest) =
      ⟨written ++ step.output, .complete⟩ := by
    have readEq := isStream.read_append step.rest
    rwa [List.append_assoc, Transfer.taken_append_rest] at readEq
  have fits : (written ++ step.output).length ≤ capacity := by
    have outputFits := step.output_le
    rw [List.length_append]
    omega
  rw [readEq]
  exact .content rfl fits

private theorem stalled_of_idle (going : step.status ≠ .streamEnd) (idle : step.IsIdle) :
    (rest = [] ∧ grammar.read consumed = ⟨written, .unfinished⟩) ∨
      (room = 0 ∧ written <+: (grammar.read (consumed ++ rest)).content ∧
        (grammar.read (consumed ++ rest)).GoesBeyond written) := by
  obtain ⟨_, _, plainRan, ended_iff⟩ := follows.plain_of_ok reached ran
  have grown := follows.written_prefix reached plainRan
  rw [idle.2, List.append_nil, Transfer.taken_of_isIdle idle, List.append_nil] at grown
  rcases follows.stalled reached plainRan (mt ended_iff.1 going) idle with
    spent | ⟨full, beyond⟩
  · exact .inl spent
  · exact .inr ⟨full, grown.trans (grammar.content_append consumed rest), beyond⟩

private theorem answers_of_full (going : step.status ≠ .streamEnd) (idle : step.IsIdle)
    (used : capacity = written.length) :
    Answers length capacity (grammar.read (consumed ++ rest))
      (.error (.bufferTooSmall codecName length capacity)) := by
  subst used
  rcases stalled_of_idle follows reached ran going idle with
    ⟨rfl, readEq⟩ | ⟨_, grown, beyond⟩
  · rw [List.append_nil, readEq]
    exact .full (Nat.le_refl _) Verdict.noConfusion
  · refine .full grown.length_le fun complete => ?_
    rcases beyond with different | faulty
    · apply Nat.lt_of_le_of_ne grown.length_le
      intro same
      exact different (grown.eq_of_length same).symm
    · rw [faulty] at complete
      cases complete

private theorem answers_of_stuck (going : step.status ≠ .streamEnd) (idle : step.IsIdle)
    (roomy : room ≠ 0) (capacityEq : capacity = written.length + room) :
    Answers length capacity (grammar.read (consumed ++ rest))
      (.error (.corruptInput (.truncated (length - rest.length) length))) := by
  rcases stalled_of_idle follows reached ran going idle with
    ⟨rfl, readEq⟩ | ⟨full, _⟩
  · rw [List.append_nil, readEq, List.length_nil, Nat.sub_zero]
    exact .truncated rfl (by simp only; omega)
  · exact absurd full roomy

end

variable {ι : Type} [InflateEngine ι] {format : Format} {grammar : Grammar}

theorem answers_inflateFrom (follows : InflateEngine.Follows ι format grammar)
    (length capacity : Nat) (engine : ι) (rest : Bytes) (room : Nat)
    (written : Bytes) :
    ∀ consumed, InflateEngine.Reached format consumed written engine →
      capacity = written.length + room →
      Answers length capacity (grammar.read (consumed ++ rest))
        (inflateFrom length capacity engine rest room written).1 := by
  fun_induction inflateFrom length capacity engine rest room written with
  | case1 engine rest room written error next ran =>
      intro consumed reached capacityEq
      obtain ⟨words, failed, rfl⟩ := Engine.run_of_inflate_error ran
      exact answers_of_error follows reached failed capacityEq
  | case2 engine rest room written step next ran written' ended =>
      intro consumed reached capacityEq
      exact answers_of_ended follows reached (Engine.run_of_inflate_ok ran) ended
        capacityEq
  | case3 engine rest written step next ran going idle =>
      intro consumed reached capacityEq
      exact answers_of_full follows reached (Engine.run_of_inflate_ok ran) going idle
        capacityEq
  | case4 engine rest room written step next ran going idle roomy =>
      intro consumed reached capacityEq
      exact answers_of_stuck follows reached (Engine.run_of_inflate_ok ran) going idle
        roomy capacityEq
  | case5 engine rest room written step next ran written' going busy induction =>
      intro consumed reached capacityEq
      have onward := induction (consumed ++ step.taken)
        (reached.call (Engine.run_of_inflate_ok ran) going) (by
          have outputFits := step.output_le
          simp only [written', List.length_append, Transfer.roomLeft]
          omega)
      rwa [List.append_assoc, Transfer.taken_append_rest] at onward

theorem answers_inflate (follows : InflateEngine.Follows ι format grammar)
    (input : Bytes) (capacity : Nat) :
    Answers input.length capacity (grammar.read input)
      (inflate (InflateEngine.start (ι := ι) format) input capacity).1 :=
  answers_inflateFrom follows input.length capacity _ input capacity [] [] .start
    (by simp)

end OneShot

namespace SoftwareCodec

variable {ε ι : Type} [DeflateEngine ε] [InflateEngine ι] {level : Fin 10}
  {format : Format} {grammar : Grammar} {codec : SoftwareCodec ε ι}

theorem AsNew.answers_decompress (asNew : codec.AsNew level format)
    (follows : InflateEngine.Follows ι format grammar) (input : Bytes)
    {room : Nat} (roomy : 0 < room) :
    OneShot.Answers input.length room (grammar.read input)
      (codec.decompress input room).result := by
  rw [asNew.decompress_result, if_neg (Nat.ne_of_gt roomy)]
  exact OneShot.answers_inflate follows input room

end SoftwareCodec

end StreamCodec
