import StreamCodec.Inflate.Decoder

namespace StreamCodec.Inflate

structure Reach where
  decoder : Decoder
  consumed : Nat
  room : Nat
  written : Bytes

namespace Decoder

/-- Writes what needs no further input. A distance is judged only when there is
room for the byte it points at. -/
def give (decoder : Decoder) (consumed : Nat) (written : Bytes) : Nat → Reach
  | 0 => ⟨decoder, consumed, 0, written⟩
  | room + 1 =>
      match decoder.phase with
      | .literal byte =>
          (decoder.giveLiteral byte).give consumed (byte :: written) room
      | .copy length distance =>
          match decoder.window.back? distance with
          | some byte =>
              (decoder.giveCopied byte length distance).give consumed
                (byte :: written) room
          | none =>
              ⟨decoder.fail .distanceTooFar, consumed, room + 1, written⟩
      | _ => ⟨decoder, consumed, room + 1, written⟩

def advance (decoder : Decoder) (consumed room : Nat) (written : Bytes) :
    Bytes → Reach
  | [] => decoder.give consumed written room
  | byte :: rest =>
      let reach := decoder.give consumed written room
      match reach.decoder.phase with
      | .octets .. | .bits .. | .symbol .. =>
          (reach.decoder.takeByte byte).advance (reach.consumed + 1) reach.room
            reach.written rest
      | .stored left =>
          match reach.room with
          | 0 => reach
          | room + 1 =>
              (reach.decoder.takeStored byte left).advance (reach.consumed + 1)
                room (byte :: reach.written) rest
      | _ => reach

theorem give_consumed (decoder : Decoder) (consumed room : Nat)
    (written : Bytes) :
    (decoder.give consumed written room).consumed = consumed := by
  induction room generalizing decoder written with
  | zero => rfl
  | succ room induction =>
      unfold give
      split
      · exact induction _ _
      · split
        · exact induction _ _
        · rfl
      · rfl

theorem give_room (decoder : Decoder) (consumed room : Nat) (written : Bytes) :
    (decoder.give consumed written room).written.length +
        (decoder.give consumed written room).room =
      written.length + room := by
  induction room generalizing decoder written with
  | zero => rfl
  | succ room induction =>
      unfold give
      split
      · rw [induction]; simp; omega
      · split
        · rw [induction]; simp; omega
        · rfl
      · rfl

theorem advance_consumed (decoder : Decoder) (consumed room : Nat)
    (written input : Bytes) :
    (decoder.advance consumed room written input).consumed ≤
      consumed + input.length := by
  induction input generalizing decoder consumed room written with
  | nil => simp [advance, give_consumed]
  | cons byte rest induction =>
      have unmoved := give_consumed decoder consumed room written
      have onward (decoder : Decoder) (room : Nat) (written : Bytes) :
          (decoder.advance (consumed + 1) room written rest).consumed ≤
            consumed + (byte :: rest).length := by
        have bound := induction decoder (consumed + 1) room written
        simp only [List.length_cons]
        omega
      simp only [advance, unmoved]
      split
      · exact onward ..
      · exact onward ..
      · exact onward ..
      · split
        · simp [unmoved]
        · exact onward ..
      · simp [unmoved]

theorem advance_room (decoder : Decoder) (consumed room : Nat)
    (written input : Bytes) :
    (decoder.advance consumed room written input).written.length +
        (decoder.advance consumed room written input).room =
      written.length + room := by
  induction input generalizing decoder consumed room written with
  | nil => exact give_room ..
  | cons byte rest induction =>
      have balance := give_room decoder consumed room written
      simp only [advance]
      split
      · rw [induction, balance]
      · rw [induction, balance]
      · rw [induction, balance]
      · split
        · exact balance
        · next left roomEq =>
            rw [induction, ← balance, roomEq]
            simp only [List.length_cons]
            omega
      · exact balance

theorem advance_consumed_le (decoder : Decoder) (room : Nat) (input : Bytes) :
    (decoder.advance 0 room [] input).consumed ≤ input.length := by
  simpa using decoder.advance_consumed 0 room [] input

theorem advance_written_le (decoder : Decoder) (room : Nat) (input : Bytes) :
    (decoder.advance 0 room [] input).written.length ≤ room := by
  have same := decoder.advance_room 0 room [] input
  simp only [List.length_nil, Nat.zero_add] at same
  omega

end Decoder

end StreamCodec.Inflate
