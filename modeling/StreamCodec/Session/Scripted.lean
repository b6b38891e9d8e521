import StreamCodec.Session.Basic

namespace StreamCodec.Scripted

/-! Sessions that follow a script instead of an engine, to see how their callers
behave. What they write are the numbers 0, 1, …, 255, 0, … -/

/-- A share of a buffer. A count beyond its end means all of it. -/
inductive Amount
  | all
  | upTo (count : Nat)
  deriving DecidableEq, Repr

def Amount.within (length : Nat) : Amount → Nat
  | .all => length
  | .upTo count => min count length

theorem Amount.within_le (amount : Amount) (length : Nat) :
    amount.within length ≤ length := by
  cases amount with
  | all => exact Nat.le_refl _
  | upTo count => exact Nat.min_le_right _ _

inductive Call
  | compress (input room : Nat)
  | finish (room : Nat)
  | decompress (input room : Nat)
  deriving DecidableEq, Repr

def count (start : UInt8) : Nat → Bytes
  | 0 => []
  | length + 1 => start :: count (start + 1) length

@[simp] theorem length_count (start : UInt8) (length : Nat) :
    (count start length).length = length := by
  induction length generalizing start with
  | zero => rfl
  | succ length induction => simp [count, induction]

/-- What all scripted sessions keep: the next number and the calls seen, latest
first. -/
structure Journal where
  next : UInt8
  calls : List Call

namespace Journal

def empty : Journal := ⟨0, []⟩

def note (journal : Journal) (call : Call) : Journal :=
  { journal with calls := call :: journal.calls }

def skip (journal : Journal) (length : Nat) : Journal :=
  { journal with next := journal.next + UInt8.ofNat length }

def transfer (journal : Journal) (input : Bytes) (room : Nat)
    (read written : Amount) : Transfer input room × Journal :=
  let length := written.within room
  ({ consumed := read.within input.length
     output := count journal.next length
     consumed_le := read.within_le _
     output_le := by simpa using written.within_le room },
    journal.skip length)

def drained (journal : Journal) (room : Nat) (written : Amount)
    (retry : Bool) : Drained room × Journal :=
  let length := written.within room
  ({ output := count journal.next length
     retry := retry
     output_le := by simpa using written.within_le room },
    journal.skip length)

end Journal

structure CompressorScript where
  compress : List (Except CodecError (Amount × Amount))
  finish : List (Except CodecError (Amount × Bool))
  journal : Journal

namespace CompressorScript

/-- After its script a session reads everything and ends at once. -/
def nextCompress (script : CompressorScript) :
    Except CodecError (Amount × Amount) × CompressorScript :=
  match script.compress with
  | [] => (.ok (.all, .upTo 0), script)
  | cue :: rest => (cue, { script with compress := rest })

def nextFinish (script : CompressorScript) :
    Except CodecError (Amount × Bool) × CompressorScript :=
  match script.finish with
  | [] => (.ok (.upTo 0, false), script)
  | cue :: rest => (cue, { script with finish := rest })

def note (script : CompressorScript) (call : Call) : CompressorScript :=
  { script with journal := script.journal.note call }

instance : Compressor CompressorScript where
  compress script input room :=
    match (script.note (.compress input.length room)).nextCompress with
    | (.error error, script) => (.error error, script)
    | (.ok (read, written), script) =>
        let (transfer, journal) :=
          script.journal.transfer input room read written
        (.ok transfer, { script with journal := journal })
  flush script room :=
    (.ok { output := [], retry := false, output_le := Nat.zero_le room }, script)
  finish script room :=
    match (script.note (.finish room)).nextFinish with
    | (.error error, script) => (.error error, script)
    | (.ok (written, retry), script) =>
        let (drained, journal) := script.journal.drained room written retry
        (.ok drained, { script with journal := journal })

end CompressorScript

structure DecompressorCue where
  read : Amount
  written : Amount
  finished : Bool
  needMoreOutput : Bool
  deriving DecidableEq, Repr

structure DecompressorScript where
  decompress : List (Except CodecError DecompressorCue)
  finished : Bool
  journal : Journal

namespace DecompressorScript

def nextDecompress (script : DecompressorScript) :
    Except CodecError DecompressorCue × DecompressorScript :=
  match script.decompress with
  | [] =>
      (.ok
        { read := .all, written := .upTo 0, finished := false
          needMoreOutput := false }, script)
  | cue :: rest => (cue, { script with decompress := rest })

def note (script : DecompressorScript) (call : Call) : DecompressorScript :=
  { script with journal := script.journal.note call }

instance : Decompressor DecompressorScript where
  decompress script input room :=
    match (script.note (.decompress input.length room)).nextDecompress with
    | (.error error, script) => (.error error, script)
    | (.ok cue, script) =>
        let (transfer, journal) :=
          script.journal.transfer input room cue.read cue.written
        (.ok { transfer with needMoreOutput := cue.needMoreOutput },
          { script with journal := journal, finished := cue.finished })
  reset script := (.ok (), { script with finished := false })
  isFinished script := script.finished

end DecompressorScript

end StreamCodec.Scripted
