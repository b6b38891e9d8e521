import StreamCodec.Bytes

namespace StreamCodec

inductive Acceptance (offered : Nat)
  | accepted (count : Nat) (fits : count ≤ offered)
  | interrupted
  | failed (text : String)

class Sink (ω : Type) where
  write : ω → (offered : Bytes) → Acceptance offered.length × ω
  flush : ω → Except String Unit × ω

structure SinkLimits where
  interruptEvery : Option Nat
  perWrite : Option Nat
  inTotal : Option Nat
  refusal : Option String
  flushFailure : Option String
  deriving DecidableEq, Repr

structure LimitedSink where
  limits : SinkLimits
  pieces : List Bytes
  size : Nat
  writes : Nat
  flushes : Nat

namespace LimitedSink

def new (limits : SinkLimits) : LimitedSink := ⟨limits, [], 0, 0, 0⟩

def content (sink : LimitedSink) : Bytes :=
  sink.pieces.reverse.flatten

def interrupts (sink : LimitedSink) : Bool :=
  match sink.limits.interruptEvery with
  | none => false
  | some every => sink.writes % every == 0

def roomLeft (sink : LimitedSink) : Option Nat :=
  sink.limits.inTotal.map fun total => total - sink.size

def share (sink : LimitedSink) (offered : Bytes) : Bytes :=
  let allowed :=
    match sink.limits.perWrite with
    | none => offered
    | some most => offered.take most
  match sink.roomLeft with
  | none => allowed
  | some room => allowed.take room

theorem length_share_le (sink : LimitedSink) (offered : Bytes) :
    (sink.share offered).length ≤ offered.length := by
  simp only [share]
  have allowed : ∀ most : Option Nat,
      (match most with
        | none => offered
        | some most => offered.take most).length ≤ offered.length := by
    intro most
    cases most with
    | none => exact Nat.le_refl _
    | some most => exact List.length_take_le' most offered
  cases sink.roomLeft with
  | none => exact allowed _
  | some room =>
      exact Nat.le_trans (List.length_take_le' room _) (allowed _)

def accept (sink : LimitedSink) (offered : Bytes) :
    Acceptance offered.length × LimitedSink :=
  let share := sink.share offered
  (.accepted share.length (sink.length_share_le offered),
    { sink with
      pieces := share :: sink.pieces
      size := sink.size + share.length })

def write (sink : LimitedSink) (offered : Bytes) :
    Acceptance offered.length × LimitedSink :=
  let sink := { sink with writes := sink.writes + 1 }
  if sink.interrupts then (.interrupted, sink)
  else
    match sink.limits.refusal with
    | none => sink.accept offered
    | some text =>
        if sink.limits.inTotal = some sink.size then (.failed text, sink)
        else sink.accept offered

def flush (sink : LimitedSink) : Except String Unit × LimitedSink :=
  let sink := { sink with flushes := sink.flushes + 1 }
  match sink.limits.flushFailure with
  | none => (.ok (), sink)
  | some text => (.error text, sink)

instance : Sink LimitedSink := ⟨write, flush⟩

end LimitedSink

end StreamCodec
