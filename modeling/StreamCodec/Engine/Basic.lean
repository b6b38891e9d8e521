import StreamCodec.Bytes
import StreamCodec.Format

namespace StreamCodec

/-- What one call took of its input and wrote into its room. -/
structure Transfer (input : Bytes) (room : Nat) where
  consumed : Nat
  output : Bytes
  consumed_le : consumed ≤ input.length
  output_le : output.length ≤ room

namespace Transfer

variable {input : Bytes} {room : Nat}

def idle (input : Bytes) (room : Nat) : Transfer input room where
  consumed := 0
  output := []
  consumed_le := Nat.zero_le _
  output_le := Nat.zero_le _

def IsIdle (transfer : Transfer input room) : Prop :=
  transfer.consumed = 0 ∧ transfer.output = []

instance (transfer : Transfer input room) : Decidable transfer.IsIdle :=
  inferInstanceAs (Decidable (_ ∧ _))

def rest (transfer : Transfer input room) : Bytes :=
  input.drop transfer.consumed

def roomLeft (transfer : Transfer input room) : Nat :=
  room - transfer.output.length

theorem isIdle_idle (input : Bytes) (room : Nat) : (idle input room).IsIdle :=
  ⟨rfl, rfl⟩

theorem shrinks (transfer : Transfer input room) (busy : ¬transfer.IsIdle) :
    transfer.rest.length + transfer.roomLeft < input.length + room := by
  have consumed_le := transfer.consumed_le
  have output_le := transfer.output_le
  have moved : 0 < transfer.consumed ∨ 0 < transfer.output.length := by
    rcases Nat.eq_zero_or_pos transfer.consumed with noneTaken | taken
    · rcases outputEq : transfer.output with _ | ⟨byte, tail⟩
      · exact absurd ⟨noneTaken, outputEq⟩ busy
      · exact .inr (by simp)
    · exact .inl taken
  simp only [rest, roomLeft, List.length_drop]
  omega

end Transfer

inductive Status
  | progress
  /-- Nothing was done for want of input or room, or inflating did not finish. -/
  | stalled
  | streamEnd
  deriving DecidableEq, Repr

structure Step (input : Bytes) (room : Nat) extends Transfer input room where
  status : Status

inductive Flush
  | none
  | sync
  | finish
  deriving DecidableEq, Repr

/-- A deflate engine. An error carries the engine's own words, if it has any. -/
class DeflateEngine (ε : Type) where
  start : (level : Fin 10) → Format → ε
  run : ε → Flush → (input : Bytes) → (room : Nat) →
    Except (Option String) (Step input room) × ε
  /-- Keeps level and format and drops the stream. -/
  reset : ε → ε

class InflateEngine (ι : Type) where
  start : Format → ι
  run : ι → Flush → (input : Bytes) → (room : Nat) →
    Except (Option String) (Step input room) × ι
  /-- Drops the stream in place. The next one is raw, or has zlib framing. -/
  rewind : (zlibFramed : Bool) → ι → ι

end StreamCodec
