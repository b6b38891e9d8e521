import StreamCodec.Proofs.Deflate.Storing
import StreamCodec.Proofs.Engine.Marking

namespace StreamCodec.Deflate

open DeflateEngine (Fed MayMark Pending Syncs markerLength)

namespace Encoder

/-! What calls for a marker give, and what can be read then. -/

variable {encoder next : Encoder} {format : Format} {taken given : Bytes}

private theorem length_le_of_mayMark {pieces : List Bytes}
    (mayMark : MayMark encoder pieces) :
    8 * pieces.flatten.length ≤
      encoder.weight + markerWeight .sync * pieces.length := by
  induction mayMark with
  | nothing => exact Nat.zero_le _
  | call ran later induction =>
      have balance := weight_of_answers (answers_run ran)
      rw [Transfer.taken_of_nil, List.length_nil] at balance
      simp only [List.flatten_cons, List.length_append, List.length_cons,
        Nat.mul_succ]
      omega

private theorem pending_weight (encoder : Encoder) : Pending encoder encoder.weight := by
  intro pieces mayMark
  have bound := length_le_of_mayMark mayMark
  simp only [markerWeight, storedSize, markerLength] at bound ⊢
  omega

private theorem held_mark (encoder : Encoder) : encoder.mark.held = #[] := by
  simp only [mark]
  split
  · next nothing => simpa using nothing
  · rfl

private theorem held_sync {room : Nat}
    (space : (encoder.sync room).output.bytes.length < room) :
    (encoder.sync room).held = #[] := by
  unfold sync at space ⊢
  split
  · next marksNot =>
      rw [if_pos marksNot] at space
      have leaves : encoder.leavesRoom room = true := by
        simp only [leavesRoom, List.isEmpty_iff, List.drop_eq_nil_iff]
        omega
      simp only [leaves, Bool.not_true, Bool.or_false, Bool.and_eq_true,
        Array.isEmpty_iff] at marksNot
      exact marksNot.2
  · exact held_mark encoder

private theorem Tracks.read_eq (tracks : encoder.Tracks format given taken)
    (noneHeld : encoder.held = #[]) :
    (Inflate.grammar format).read (given ++ encoder.output.bytes) =
      ⟨taken, .unfinished⟩ := by
  obtain ⟨content, stores, takenEq⟩ := tracks.stores
  obtain ⟨decoder, absorbs, atBlock⟩ := stores.reads
  rw [absorbs.read_of_settled (by rw [atBlock.phase_eq]; rfl), atBlock.phase_eq,
    List.reverse_reverse, takenEq, noneHeld]
  simp [Inflate.Phase.verdict]

theorem read_of_sync {room : Nat} {step : Step [] room}
    (fed : Fed 0 format taken given encoder)
    (ran : encoder.run .sync [] room = (.ok step, next))
    (space : step.output.length < room) :
    (Inflate.grammar format).read (given ++ step.output) =
      ⟨taken, .unfinished⟩ := by
  cases answers_run ran with
  | idle noRoom => omega
  | gives synced _ advances takenEq output =>
      cases advances with
      | ending _ ends => cases ends
      | going =>
          have keeps : Flush.sync ≠ .finish := Flush.noConfusion
          have tracks := (tracks_of_fed fed).advance keeps [] room
          rw [List.append_nil] at tracks
          rw [output, List.length_take] at space
          rw [output, List.take_of_length_le (by omega)]
          exact tracks.read_eq (held_sync (show
            ((encoder.take []).sync room).output.bytes.length < room from by
              change (encoder.advance .sync [] room).output.bytes.length < room
              omega))

end Encoder

theorem syncs_stored (format : Format) :
    Syncs Encoder 0 format (Inflate.grammar format) where
  pending _ := ⟨_, Encoder.pending_weight _⟩
  readable := Encoder.read_of_sync

end StreamCodec.Deflate
