import StreamCodec.Accelerator.Driver
import StreamCodec.Bound

namespace StreamCodec.Accelerator

/-- A simulated accelerator. It marks its input with the session and the call
instead of compressing it, and can be told to fail and to call back. -/
structure Loopback where
  identity : Nat
  name : String
  extra : Nat
  callFailure : Option Failure
  openFailure : Option Failure
  /-- Only so many first attempts to open a session fail. -/
  failingAttempts : Option Nat
  callsBack : Option String
  opensBack : Option String
  deriving DecidableEq, Repr

namespace Loopback

def plain (identity : Nat) (name : String) : Loopback :=
  { identity := identity, name := name, extra := 2, callFailure := none
    openFailure := none, failingAttempts := none, callsBack := none
    opensBack := none }

structure Session where
  driver : Loopback
  serial : Nat
  calls : Nat
  deriving DecidableEq, Repr

structure Note where
  compressed : Except CodecError Nat
  decompressedEmpty : Except CodecError Nat
  hasOwn : Bool
  hasUnknown : Bool

structure Tally where
  attempts : Nat
  opened : Nat
  deriving DecidableEq, Repr

/-- What the host keeps: a tally for each driver, and notes, latest first. -/
structure Host where
  tallies : List (Nat × Tally)
  notes : List Note

namespace Host

def empty : Host := ⟨[], []⟩

def tally (host : Host) (driver : Loopback) : Tally :=
  (host.tallies.lookup driver.identity).getD ⟨0, 0⟩

def setTally (host : Host) (driver : Loopback) (tally : Tally) : Host :=
  { host with tallies := (driver.identity, tally) :: host.tallies }

def opened (host : Host) (driver : Loopback) : Nat :=
  (host.tally driver).opened

end Host

abbrev Talk (α : Type) : Type := Dialogue Loopback Host α

def callBack (driver : Loopback) (innerName : String) : Talk Unit :=
  let inner := plain 0 innerName
  let input : Bytes := "inner".toUTF8.toList
  .compress inner input 64 fun compressed =>
    .decompress inner input 0 fun decompressed =>
      .hasSession driver.name fun hasOwn =>
        .hasSession "no such driver" fun hasUnknown =>
          .read fun host =>
            let note : Note :=
              { compressed := compressed.map List.length
                decompressedEmpty := decompressed.map List.length
                hasOwn := hasOwn
                hasUnknown := hasUnknown }
            .write { host with notes := note :: host.notes } (.done ())

def callBackIf (driver : Loopback) : Option String → Talk Unit
  | none => .done ()
  | some innerName => driver.callBack innerName

def failsToOpen (driver : Loopback) (attempts : Nat) : Option Failure :=
  match driver.failingAttempts with
  | none => driver.openFailure
  | some limit => if attempts < limit then driver.openFailure else none

def openSession (driver : Loopback) : Talk (Except Failure Session) := do
  driver.callBackIf driver.opensBack
  .read fun host =>
    let tally := host.tally driver
    let tried := { tally with attempts := tally.attempts + 1 }
    match driver.failsToOpen tally.attempts with
    | some failure => .write (host.setTally driver tried) (.done (.error failure))
    | none =>
        let serial := tally.opened + 1
        .write (host.setTally driver { tried with opened := serial })
          (.done (.ok { driver := driver, serial := serial, calls := 0 }))

def fit (room : Nat) (bytes : Bytes) : Except Failure (Written room) :=
  if fits : bytes.length ≤ room then .ok ⟨bytes, fits⟩
  else .error .invalidParameters

def Session.call (session : Session) (room : Nat)
    (work : Session → Except Failure (Written room)) :
    Talk (Except Failure (Written room) × Session) := do
  let session := { session with calls := session.calls + 1 }
  session.driver.callBackIf session.driver.callsBack
  match session.driver.callFailure with
  | some failure => pure (.error failure, session)
  | none => pure (work session, session)

def Session.mark (session : Session) : Bytes :=
  [UInt8.ofNat session.serial, UInt8.ofNat session.calls]

def unmark (input : Bytes) : Except Failure Bytes :=
  match input with
  | _ :: _ :: content => .ok content
  | _ => .error .failed

instance : Driver Loopback Host Session where
  name := name
  maxCompressedLength driver length := addLengths length driver.extra
  openSession := openSession
  compress session input room :=
    session.call room fun session => fit room (session.mark ++ input)
  decompress session input room :=
    session.call room fun _ => (unmark input).bind (fit room)

end Loopback

end StreamCodec.Accelerator
