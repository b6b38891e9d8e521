import StreamCodec.Inflate.Run
import StreamCodec.Proofs.Engine.Grammar

namespace StreamCodec.Inflate

open Block

/-! How far a decoder gets whose room is never used up. This gives the bytes of a
format their meaning. -/

def Phase.wantsByte : Phase → Bool
  | .octets .. | .bits .. | .symbol .. | .stored .. => true
  | _ => false

/-- At least so many steps pass before the decoder wants input. -/
def Phase.backlog : Phase → Nat
  | .literal _ => 1
  | .copy length _ => length + 1
  | _ => 0

def Phase.verdict : Phase → Verdict
  | .finished => .complete
  | .failed _ => .faulty
  | _ => .unfinished

structure Yield where
  decoder : Decoder
  written : Bytes

def Yield.meaning (yield : Yield) : Meaning :=
  ⟨yield.written.reverse, yield.decoder.phase.verdict⟩

namespace Decoder

private theorem length_hold_takeBits_le (decoder : Decoder) (bits : Bits) :
    (decoder.takeBits bits).hold.length ≤ bits.length := by
  induction bits generalizing decoder with
  | nil => exact Nat.le_refl 0
  | cons bit rest induction =>
      have later := induction (decoder.takeBit bit)
      unfold takeBits
      split
      · exact Nat.le_succ_of_le later
      · exact Nat.le_succ_of_le later
      · exact Nat.le_refl _
      · exact Nat.le_refl _
      · exact Nat.zero_le _

private theorem resume_shrinks (decoder : Decoder) :
    decoder.resume.hold.length < decoder.hold.length ∨
      decoder.resume.hold.length = decoder.hold.length ∧
        decoder.resume.phase.backlog = 0 := by
  unfold resume
  cases decoder.hold with
  | nil => exact .inr ⟨rfl, rfl⟩
  | cons bit rest =>
      have shorter :=
        length_hold_takeBits_le (decoder.readLiteral.takeBit bit) rest
      exact .inl (Nat.lt_succ_of_le shorter)

def settle (decoder : Decoder) (written : Bytes) : Yield :=
  match _ : decoder.phase with
  | .literal byte => (decoder.giveLiteral byte).settle (byte :: written)
  | .copy length distance =>
      match decoder.window.back? distance with
      | some byte =>
          (decoder.giveCopied byte length distance).settle (byte :: written)
      | none => ⟨decoder.fail .distanceTooFar, written⟩
  | _ => ⟨decoder, written⟩
termination_by (decoder.hold.length, decoder.phase.backlog)
decreasing_by
  · rename_i phaseEq
    rcases (decoder.record byte .finished).resume_shrinks with less | ⟨same, settled⟩
    · exact .left _ _ less
    · rw [giveLiteral, same, settled, phaseEq]
      exact .right _ Nat.zero_lt_one
  · rename_i phaseEq
    unfold giveCopied
    split
    · rcases (decoder.record byte .finished).resume_shrinks with
        less | ⟨same, settled⟩
      · exact .left _ _ less
      · rw [same, settled, phaseEq]
        exact .right _ (Nat.zero_lt_succ _)
    · next more =>
        rw [phaseEq]
        refine .right _ ?_
        simp only [record, Phase.backlog]
        omega

def accept (decoder : Decoder) (byte : UInt8) (written : Bytes) : Yield :=
  match decoder.phase with
  | .stored left => ⟨decoder.takeStored byte left, byte :: written⟩
  | _ => ⟨decoder.takeByte byte, written⟩

def absorb (decoder : Decoder) (written : Bytes) : Bytes → Yield
  | [] => decoder.settle written
  | byte :: rest =>
      let settled := decoder.settle written
      if settled.decoder.phase.wantsByte then
        let accepted := settled.decoder.accept byte settled.written
        accepted.decoder.absorb accepted.written rest
      else settled

variable {decoder : Decoder}

theorem settle_of_literal {byte : UInt8} (phaseEq : decoder.phase = .literal byte)
    (written : Bytes) :
    decoder.settle written =
      (decoder.giveLiteral byte).settle (byte :: written) := by
  rw [settle]
  split
  · next found =>
      rw [phaseEq] at found
      cases found
      rfl
  · next found => rw [phaseEq] at found; cases found
  · next otherwise _ => exact absurd phaseEq (otherwise byte)

theorem settle_of_copied {length distance : Nat} {byte : UInt8}
    (phaseEq : decoder.phase = .copy length distance)
    (back : decoder.window.back? distance = some byte) (written : Bytes) :
    decoder.settle written =
      (decoder.giveCopied byte length distance).settle (byte :: written) := by
  rw [settle]
  split
  · next found => rw [phaseEq] at found; cases found
  · next found =>
      rw [phaseEq] at found
      cases found
      rw [back]
  · next otherwise => exact absurd phaseEq (otherwise length distance)

theorem settle_of_tooFar {length distance : Nat}
    (phaseEq : decoder.phase = .copy length distance)
    (back : decoder.window.back? distance = none) (written : Bytes) :
    decoder.settle written = ⟨decoder.fail .distanceTooFar, written⟩ := by
  rw [settle]
  split
  · next found => rw [phaseEq] at found; cases found
  · next found =>
      rw [phaseEq] at found
      cases found
      rw [back]
  · next otherwise => exact absurd phaseEq (otherwise length distance)

theorem settle_of_backlog (settled : decoder.phase.backlog = 0)
    (written : Bytes) : decoder.settle written = ⟨decoder, written⟩ := by
  rw [settle]
  split
  · next found => rw [found] at settled; cases settled
  · next found => rw [found] at settled; cases settled
  · rfl

/-- One rule for each way a decoder settles. -/
@[elab_as_elim]
theorem settle_induction {motive : Decoder → Bytes → Prop}
    (settled : ∀ decoder written, decoder.phase.backlog = 0 →
      motive decoder written)
    (literal : ∀ decoder byte written, decoder.phase = .literal byte →
      motive (decoder.giveLiteral byte) (byte :: written) →
      motive decoder written)
    (copied : ∀ decoder length distance byte written,
      decoder.phase = .copy length distance →
      decoder.window.back? distance = some byte →
      motive (decoder.giveCopied byte length distance) (byte :: written) →
      motive decoder written)
    (tooFar : ∀ decoder length distance written,
      decoder.phase = .copy length distance →
      decoder.window.back? distance = none → motive decoder written)
    (decoder : Decoder) (written : Bytes) : motive decoder written := by
  fun_induction settle decoder written with
  | case1 decoder written byte phaseEq induction =>
      exact literal decoder byte written phaseEq induction
  | case2 decoder written length distance phaseEq byte back induction =>
      exact copied decoder length distance byte written phaseEq back induction
  | case3 decoder written length distance phaseEq back =>
      exact tooFar decoder length distance written phaseEq back
  | case4 decoder written notLiteral notCopy =>
      apply settled
      rcases phaseEq : decoder.phase with _ | _ | _ | _ | byte | ⟨length, distance⟩ | _ | _
      any_goals rfl
      · exact (notLiteral byte phaseEq).elim
      · exact (notCopy length distance phaseEq).elim

theorem backlog_settle (decoder : Decoder) (written : Bytes) :
    (decoder.settle written).decoder.phase.backlog = 0 := by
  induction decoder, written using settle_induction with
  | settled decoder written settled =>
      rw [settle_of_backlog settled]
      exact settled
  | literal decoder byte written phaseEq induction =>
      rw [settle_of_literal phaseEq]
      exact induction
  | copied decoder length distance byte written phaseEq back induction =>
      rw [settle_of_copied phaseEq back]
      exact induction
  | tooFar decoder length distance written phaseEq back =>
      rw [settle_of_tooFar phaseEq back]
      rfl

theorem settle_append (decoder : Decoder) (first second : Bytes) :
    decoder.settle (first ++ second) =
      ⟨(decoder.settle first).decoder,
        (decoder.settle first).written ++ second⟩ := by
  induction decoder, first using settle_induction with
  | settled decoder first settled =>
      rw [settle_of_backlog settled, settle_of_backlog settled]
  | literal decoder byte first phaseEq induction =>
      rw [settle_of_literal phaseEq, settle_of_literal phaseEq]
      exact induction
  | copied decoder length distance byte first phaseEq back induction =>
      rw [settle_of_copied phaseEq back, settle_of_copied phaseEq back]
      exact induction
  | tooFar decoder length distance first phaseEq back =>
      rw [settle_of_tooFar phaseEq back, settle_of_tooFar phaseEq back]

theorem accept_append (decoder : Decoder) (byte : UInt8) (first second : Bytes) :
    decoder.accept byte (first ++ second) =
      ⟨(decoder.accept byte first).decoder,
        (decoder.accept byte first).written ++ second⟩ := by
  unfold accept
  split <;> rfl

theorem absorb_append_written (decoder : Decoder) (first second input : Bytes) :
    decoder.absorb (first ++ second) input =
      ⟨(decoder.absorb first input).decoder,
        (decoder.absorb first input).written ++ second⟩ := by
  induction input generalizing decoder first with
  | nil => exact settle_append decoder first second
  | cons byte rest induction =>
      simp only [absorb, settle_append, accept_append]
      split
      · exact induction ..
      · rfl

theorem absorb_of_settle {other : Decoder} {written otherWritten : Bytes}
    (same : decoder.settle written = other.settle otherWritten) (input : Bytes) :
    decoder.absorb written input = other.absorb otherWritten input := by
  cases input with
  | nil => exact same
  | cons byte rest => simp only [absorb, same]

theorem absorb_of_over {written : Bytes}
    (isOver : decoder.phase.verdict ≠ .unfinished) (input : Bytes) :
    decoder.absorb written input = ⟨decoder, written⟩ := by
  have settled : decoder.phase.backlog = 0 := by
    cases phaseEq : decoder.phase <;> simp [phaseEq, Phase.verdict] at isOver <;> rfl
  have wantsNone : ¬decoder.phase.wantsByte = true := by
    cases phaseEq : decoder.phase <;>
      simp [phaseEq, Phase.verdict, Phase.wantsByte] at isOver ⊢
  cases input with
  | nil => exact settle_of_backlog settled written
  | cons byte rest =>
      simp only [absorb, settle_of_backlog settled written]
      exact if_neg wantsNone

theorem over_of_settled (settled : decoder.phase.backlog = 0)
    (wantsNone : ¬decoder.phase.wantsByte = true) :
    decoder.phase.verdict ≠ .unfinished := by
  cases phaseEq : decoder.phase <;>
    simp [phaseEq, Phase.verdict, Phase.wantsByte, Phase.backlog]
      at settled wantsNone ⊢

theorem absorb_append (decoder : Decoder) (written input more : Bytes) :
    decoder.absorb written (input ++ more) =
      (decoder.absorb written input).decoder.absorb
        (decoder.absorb written input).written more := by
  induction input generalizing decoder written with
  | nil =>
      apply absorb_of_settle
      exact (settle_of_backlog (backlog_settle decoder written) _).symm
  | cons byte rest induction =>
      simp only [List.cons_append, absorb]
      split
      · exact induction ..
      · next wantsNone =>
          have isOver := over_of_settled (backlog_settle decoder written) wantsNone
          exact (absorb_of_over isOver more).symm

end Decoder

/-- The format as the decoder understands it. -/
def grammar (format : Format) : Grammar where
  read bytes := ((Decoder.start format).absorb [] bytes).meaning
  read_nil := by
    change ((Decoder.start format).settle []).meaning = _
    rw [Decoder.settle_of_backlog (by cases format <;> rfl)]
    cases format <;> rfl
  content_append bytes more := by
    rw [Decoder.absorb_append, ← List.nil_append
      ((Decoder.start format).absorb [] bytes).written,
      Decoder.absorb_append_written]
    simp only [Yield.meaning, List.reverse_append]
    exact List.prefix_append _ _
  read_append bytes more isOver := by
    rw [Decoder.absorb_append, Decoder.absorb_of_over isOver]

end StreamCodec.Inflate
