import StreamCodec.Deflate.BlockWriter
import StreamCodec.Engine.Basic

namespace StreamCodec.Deflate

structure Encoder where
  level : Fin 10
  format : Format
  /-- Runs over the content taken. -/
  digest : Digest
  /-- Content taken and not written yet. -/
  held : Array UInt8
  window : Block.Window
  /-- Written and not delivered yet. -/
  output : Output
  /-- The latest call made everything readable and left room behind it. -/
  synced : Bool
  finishing : Bool
  deriving DecidableEq, Repr

namespace Encoder

def start (level : Fin 10) (format : Format) : Encoder where
  level := level
  format := format
  digest := Digest.start format
  held := #[]
  window := .empty
  output := ⟨header level format, []⟩
  synced := false
  finishing := false

def write (encoder : Encoder) (last : Bool) (content : Bytes) : Encoder :=
  { encoder with
    window := content.foldl Block.Window.push encoder.window
    output :=
      encoder.output.appendBlock encoder.level last encoder.window content }

def writeFull (encoder : Encoder) (content : Bytes) : Encoder :=
  if blockLimit < content.length then
    (encoder.write false (content.take blockLimit)).writeFull
      (content.drop blockLimit)
  else { encoder with held := content.toArray }
termination_by content.length
decreasing_by simp [blockLimit] at *; omega

def hold (encoder : Encoder) (byte : UInt8) : Encoder :=
  { encoder with
    held := encoder.held.push byte
    digest := encoder.digest.push byte }

def take (encoder : Encoder) (input : Bytes) : Encoder :=
  let encoder := input.foldl hold encoder
  if blockLimit < encoder.held.size then
    { encoder with held := #[] }.writeFull encoder.held.toList
  else encoder

def writeHeld (encoder : Encoder) (last : Bool) : Encoder :=
  { encoder with held := #[] }.write last encoder.held.toList

/-- Everything taken becomes readable behind an empty stored block. -/
def mark (encoder : Encoder) : Encoder :=
  let encoder :=
    if encoder.held.isEmpty then encoder else encoder.writeHeld false
  { encoder with output := encoder.output.appendStored false [] }

/-- What is written leaves room for more. -/
def leavesRoom (encoder : Encoder) (room : Nat) : Bool :=
  (encoder.output.bytes.drop (room - 1)).isEmpty

/-- Marks the end of what was taken once everything before it can be delivered. A
caller who got a full buffer cannot tell that it was the last one and will ask
again, so only a marker with room behind it and nothing taken since makes another one
needless. -/
def sync (encoder : Encoder) (room : Nat) : Encoder :=
  if encoder.synced && encoder.held.isEmpty || !encoder.leavesRoom room then encoder
  else encoder.mark

def conclude (encoder : Encoder) : Encoder :=
  if encoder.finishing then encoder
  else
    let encoder := encoder.writeHeld true
    { encoder with
      output := encoder.output.appendBytes encoder.digest.trailer
      finishing := true }

def advance (encoder : Encoder) (flush : Flush) (input : Bytes) (room : Nat) :
    Encoder :=
  match flush with
  | .none => encoder.take input
  | .sync => (encoder.take input).sync room
  | .finish => (encoder.take input).conclude

def deliver (encoder : Encoder) (flush : Flush) (input : Bytes)
    (consumed room : Nat) (consumed_le : consumed ≤ input.length) :
    Step input room × Encoder :=
  let written := encoder.output.bytes
  let rest := written.drop room
  ({ consumed := consumed
     output := written.take room
     status :=
       if encoder.finishing && rest.isEmpty then .streamEnd
       else if consumed = 0 ∧ written = [] then .stalled
       else .progress
     consumed_le := consumed_le
     output_le := List.length_take_le _ _ },
    { encoder with
      synced := flush == .sync && encoder.leavesRoom room
      output := { encoder.output with bytes := rest } })

/-- A stream that is being ended takes nothing more, and without room nothing
happens. -/
def run (encoder : Encoder) (flush : Flush) (input : Bytes) (room : Nat) :
    Except (Option String) (Step input room) × Encoder :=
  if encoder.finishing ∧ flush ≠ .finish then
    (.error (some "stream error"), encoder)
  else if room = 0 then
    (.ok { Transfer.idle input room with status := .stalled }, encoder)
  else if encoder.finishing then
    match encoder.deliver flush input 0 room
        (Transfer.idle input room).consumed_le with
    | (step, encoder) => (.ok step, encoder)
  else
    match (encoder.advance flush input room).deliver flush input input.length
        room (Nat.le_refl _) with
    | (step, encoder) => (.ok step, encoder)

def reset (encoder : Encoder) : Encoder :=
  start encoder.level encoder.format

/-! Level and format stay, so that a reset leads back to the same start. -/

def setting (encoder : Encoder) : Fin 10 × Format :=
  (encoder.level, encoder.format)

theorem reset_eq_of_setting {first second : Encoder}
    (same : first.setting = second.setting) : first.reset = second.reset := by
  simp only [setting, Prod.mk.injEq] at same
  simp only [reset, same.1, same.2]

@[simp] theorem setting_write (encoder : Encoder) (last : Bool)
    (content : Bytes) : (encoder.write last content).setting = encoder.setting :=
  rfl

@[simp] theorem setting_writeHeld (encoder : Encoder) (last : Bool) :
    (encoder.writeHeld last).setting = encoder.setting := rfl

@[simp] theorem setting_writeFull (encoder : Encoder) (content : Bytes) :
    (encoder.writeFull content).setting = encoder.setting := by
  fun_induction writeFull encoder content with
  | case1 encoder content more induction => simpa using induction
  | case2 => rfl

@[simp] theorem setting_foldl_hold (encoder : Encoder) (input : Bytes) :
    (input.foldl hold encoder).setting = encoder.setting := by
  induction input generalizing encoder with
  | nil => rfl
  | cons byte rest induction => exact induction (encoder.hold byte)

@[simp] theorem setting_take (encoder : Encoder) (input : Bytes) :
    (encoder.take input).setting = encoder.setting := by
  simp only [take]
  split
  · rw [setting_writeFull]
    exact setting_foldl_hold encoder input
  · exact setting_foldl_hold encoder input

@[simp] theorem setting_mark (encoder : Encoder) :
    encoder.mark.setting = encoder.setting := by
  simp only [mark]
  split <;> rfl

@[simp] theorem setting_sync (encoder : Encoder) (room : Nat) :
    (encoder.sync room).setting = encoder.setting := by
  unfold sync
  split
  · rfl
  · exact setting_mark encoder

@[simp] theorem setting_conclude (encoder : Encoder) :
    encoder.conclude.setting = encoder.setting := by
  unfold conclude
  split <;> rfl

@[simp] theorem setting_advance (encoder : Encoder) (flush : Flush)
    (input : Bytes) (room : Nat) :
    (encoder.advance flush input room).setting = encoder.setting := by
  cases flush with
  | none => exact setting_take encoder input
  | sync => exact (setting_sync _ room).trans (setting_take encoder input)
  | finish => exact (setting_conclude _).trans (setting_take encoder input)

@[simp] theorem setting_run (encoder : Encoder) (flush : Flush) (input : Bytes)
    (room : Nat) : (encoder.run flush input room).2.setting = encoder.setting := by
  unfold run
  split
  · rfl
  · split
    · rfl
    · split
      · rfl
      · exact setting_advance encoder flush input room

end Encoder

instance : DeflateEngine Encoder where
  start := Encoder.start
  run := Encoder.run
  reset := Encoder.reset

end StreamCodec.Deflate
