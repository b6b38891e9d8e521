import Mathlib.Logic.Function.Basic
import StreamCodec.Backend.Setting
import StreamCodec.Codec.Accelerated

namespace StreamCodec.Accelerator

/-! A process in which any number of threads use accelerators. Each thread goes on by
single turns of its callbacks, in any order among the threads, and a call that a
callback makes starts like any other. -/

inductive Operation
  | compress
  | decompress
  deriving DecidableEq

def Operation.label : Operation → String
  | compress => "compression"
  | decompress => "decompression"

structure Call (δ : Type) where
  operation : Operation
  driver : δ
  input : Bytes
  room : Nat

namespace Call

variable {δ η κ : Type}

def WantsNothing (call : Call δ) : Prop :=
  call.operation = .decompress ∧ call.room = 0

instance (call : Call δ) : Decidable call.WantsNothing :=
  inferInstanceAs (Decidable (_ ∧ _))

variable [Driver δ η κ]

def name (call : Call δ) : String :=
  Driver.name call.driver

def refusal (call : Call δ) : Except CodecError Bytes :=
  if call.WantsNothing then .ok [] else .error (alreadyInUse call.driver)

def use (call : Call δ) (session : κ) :
    Dialogue δ η (Except Failure (Written call.room) × κ) :=
  match call.operation with
  | .compress => Driver.compress session call.input call.room
  | .decompress => Driver.decompress session call.input call.room

def finish (call : Call δ) :
    Except Failure (Written call.room) → Except CodecError Bytes
  | .ok written => .ok written.val
  | .error failure =>
      .error (.backend call.name call.operation.label failure.text)

def serve (call : Call δ) (registry : Registry κ) (host : η) :
    Outcome (Registry κ × η) Bytes :=
  let codec : AcceleratedCodec δ := ⟨call.driver⟩
  match call.operation with
  | .compress => codec.compress registry host call.input call.room
  | .decompress => codec.decompress registry host call.input call.room

end Call

structure Service (κ : Type) (room : Nat) where
  before : κ
  answer : Except Failure (Written room)
  after : κ

/-- A call that has ended, with the calls made by its callbacks, latest first. -/
structure Tree (δ κ : Type) where
  call : Call δ
  opening : Option (Except Failure κ)
  service : Option (Service κ call.room)
  inner : List (Tree δ κ)
  result : Except CodecError Bytes

/-- The name of the session that a call opened, if it opened one. -/
def openedName [Driver δ η κ] (call : Call δ) :
    Option (Except Failure κ) → Option String
  | some (.ok _) => some call.name
  | _ => none

namespace Tree

variable {δ η κ : Type}

def bare (call : Call δ) (result : Except CodecError Bytes) : Tree δ κ :=
  ⟨call, none, none, [], result⟩

variable [Driver δ η κ]

def opened (tree : Tree δ κ) : Option String :=
  openedName tree.call tree.opening

def left (name : String) (tree : Tree δ κ) : Option κ :=
  if tree.call.name = name then tree.service.map Service.after else none

end Tree

/-- The session of that name as the latest call left it. -/
def held [Driver δ η κ] (past : List (Tree δ κ)) (name : String) : Option κ :=
  past.findSome? (Tree.left name)

inductive Dialogue.Turn (δ η α : Type)
  | ends (answer : α)
  | continues (host : η) (rest : Dialogue δ η α)
  | calls (call : Call δ)

namespace Dialogue

variable {δ η κ α : Type}

def turn (registry : Registry κ) (host : η) : Dialogue δ η α → Turn δ η α
  | done answer => .ends answer
  | read next => .continues host (next host)
  | write host next => .continues host next
  | compress driver input room _ => .calls ⟨.compress, driver, input, room⟩
  | decompress driver input room _ => .calls ⟨.decompress, driver, input, room⟩
  | hasSession name next => .continues host (next (registry.hasSession name))

def resume (result : Except CodecError Bytes) : Dialogue δ η α → Dialogue δ η α
  | compress _ _ _ next | decompress _ _ _ next => next result
  | other => other

end Dialogue

inductive Stage (κ : Type)
  | opening
  | serving (before : κ) (result : Option (Except Failure κ))

namespace Stage

variable {κ : Type}

abbrev Answer (room : Nat) : Stage κ → Type
  | opening => Except Failure κ
  | serving _ _ => Except Failure (Written room) × κ

def openingResult : Stage κ → Option (Except Failure κ)
  | opening => none
  | serving _ result => result

end Stage

structure Frame (δ η κ : Type) where
  call : Call δ
  stage : Stage κ
  inner : List (Tree δ κ)
  rest : Dialogue δ η (stage.Answer call.room)

def Frame.opened [Driver δ η κ] (frame : Frame δ η κ) : Option String :=
  openedName frame.call frame.stage.openingResult

def Registry.leave (registry : Registry κ) : Registry κ :=
  { registry with inUse := false }

/-- The calls under way stand with the innermost first, and the outermost calls that
have ended with the latest first. -/
structure Thread (δ η κ : Type) where
  registry : Registry κ
  stack : List (Frame δ η κ)
  past : List (Tree δ κ)

namespace Thread

variable {δ η κ : Type}

def start : Thread δ η κ :=
  ⟨.empty, [], []⟩

/-- Hands an ended call to the callback that made it, if one did. -/
def conclude (thread : Thread δ η κ) (tree : Tree δ κ) : Thread δ η κ :=
  match thread.stack with
  | [] => { thread with past := tree :: thread.past }
  | frame :: outer =>
      let frame :=
        { frame with
          inner := tree :: frame.inner, rest := frame.rest.resume tree.result }
      { thread with stack := frame :: outer }

variable [Driver δ η κ]

/-- Names of the sessions opened by outermost calls. -/
def opened (thread : Thread δ η κ) : List String :=
  thread.stack.getLast?.toList.filterMap Frame.opened ++
    thread.past.filterMap Tree.opened

def begin (thread : Thread δ η κ) (call : Call δ) : Thread δ η κ :=
  let enter (stage : Stage κ) (rest : Dialogue δ η (stage.Answer call.room)) :=
    { thread with
      registry := thread.registry.enter
      stack := ⟨call, stage, [], rest⟩ :: thread.stack }
  if call.WantsNothing then thread.conclude (.bare call (.ok []))
  else if thread.registry.inUse then
    thread.conclude (.bare call (.error (alreadyInUse call.driver)))
  else
    match thread.registry.find? call.name with
    | some session => enter (.serving session none) (call.use session)
    | none => enter .opening (Driver.openSession call.driver)

def answer (registry : Registry κ) (outer : List (Frame δ η κ))
    (past : List (Tree δ κ)) (call : Call δ) (inner : List (Tree δ κ)) :
    (stage : Stage κ) → stage.Answer call.room → Thread δ η κ
  | .opening, .error failure =>
      conclude ⟨registry.leave, outer, past⟩
        { call := call, opening := some (.error failure), service := none
          inner := inner
          result := .error (.backendInit call.name (.session failure)) }
  | .opening, .ok session =>
      ⟨registry.put call.name session,
        ⟨call, .serving session (some (.ok session)), inner, call.use session⟩ :: outer,
        past⟩
  | .serving before opening, (answer, after) =>
      conclude ⟨(registry.put call.name after).leave, outer, past⟩
        { call := call, opening := opening
          service := some ⟨before, answer, after⟩
          inner := inner, result := call.finish answer }

def advance (thread : Thread δ η κ) (host : η) : Thread δ η κ × η :=
  match thread.stack with
  | [] => (thread, host)
  | frame :: outer =>
      match frame.rest.turn thread.registry host with
      | .ends reply =>
          (answer thread.registry outer thread.past frame.call frame.inner
            frame.stage reply, host)
      | .continues host rest =>
          ({ thread with stack := { frame with rest := rest } :: outer }, host)
      | .calls call => (thread.begin call, host)

end Thread

structure Process (δ η κ : Type) where
  threads : Nat → Thread δ η κ
  codecs : Nat → Option (AcceleratedCodec δ)
  installed : Option δ
  host : η

inductive Action (δ η : Type)
  | create (codec : Nat) (driver : δ)
  | select (codec : Nat) (setting : Backend.Setting) (build : Backend.Build)
      (format : Format)
  | drop (codec : Nat)
  | install (driver : δ)
  | uninstall
  | call (thread codec : Nat) (operation : Operation) (input : Bytes) (room : Nat)
  | advance (thread : Nat)
  | change (host : η)

namespace Process

variable {δ η κ : Type}

def start (host : η) : Process δ η κ :=
  ⟨fun _ => .start, fun _ => none, none, host⟩

variable [Driver δ η κ]

def act (process : Process δ η κ) : Action δ η → Process δ η κ
  | .create codec driver =>
      { process with
        codecs := Function.update process.codecs codec (some ⟨driver⟩) }
  | .select codec setting build format =>
      match setting.choose build process.installed format with
      | .accelerated driver =>
          { process with
            codecs := Function.update process.codecs codec (some ⟨driver⟩) }
      | .software _ => process
  | .drop codec =>
      { process with codecs := Function.update process.codecs codec none }
  | .install driver => { process with installed := some driver }
  | .uninstall => { process with installed := none }
  | .call number codec operation input room =>
      let thread := process.threads number
      match process.codecs codec, thread.stack with
      | some ⟨driver⟩, [] =>
          { process with
            threads := Function.update process.threads number
              (thread.begin ⟨operation, driver, input, room⟩) }
      | _, _ => process
  | .advance number =>
      let outcome := (process.threads number).advance process.host
      { process with
        threads := Function.update process.threads number outcome.1
        host := outcome.2 }
  | .change host => { process with host := host }

def afterAll (process : Process δ η κ) (actions : List (Action δ η)) :
    Process δ η κ :=
  actions.foldl act process

end Process

end StreamCodec.Accelerator
