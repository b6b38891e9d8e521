import StreamCodec.Bytes
import StreamCodec.Log
import StreamCodec.Text.Ascii

namespace StreamCodec.Backend

/-- What the configuration says about the backend. It is read anew for every
codec. -/
structure Setting where
  value : Option String
  deriving DecidableEq, Repr

namespace Setting

/-- A variable that does not hold UTF-8 counts as unset. -/
def ofEnvironment (variableBytes : Option Bytes) : Setting :=
  ⟨variableBytes.bind fun bytes => String.fromUTF8? ⟨bytes.toArray⟩⟩

end Setting

structure Build where
  accelerator : Bool
  deriving DecidableEq, Repr

inductive Choice (δ : Type)
  | software (warning : Option Warning)
  | accelerated (driver : δ)
  deriving DecidableEq, Repr

namespace Choice

def kind : Choice δ → Kind
  | software _ => .software
  | accelerated _ => .accelerated

def warning : Choice δ → Option Warning
  | software warning => warning
  | accelerated _ => none

def driver? : Choice δ → Option δ
  | software _ => none
  | accelerated driver => some driver

def log (choice : Choice δ) : List Log.Event :=
  (choice.warning.map Log.Event.backendNotHonored).toList ++
    [.backendSelected choice.kind]

def debugText (driverName : δ → String) (choice : Choice δ) : String :=
  "BackendSelection \x7b kind: " ++ choice.kind.label ++
    ", driver: " ++ optional (choice.driver?.map fun driver =>
      Text.quoted (driverName driver)) ++
    ", warning: " ++ optional (choice.warning.map Warning.debugText) ++ " \x7d"
where
  optional : Option String → String
    | none => "None"
    | some text => "Some(" ++ text ++ ")"

end Choice

/-- What the accelerator's label gets. The accelerator writes gzip framing only. -/
def chooseAccelerator (build : Build) (installed : Option δ) (format : Format) :
    Choice δ :=
  if !build.accelerator then .software (some (.notBuilt acceleratorLabel))
  else if format ≠ .gzip then
    .software (some (.unsupportedFormat acceleratorLabel format))
  else
    match installed with
    | none => .software (some (.noDriver acceleratorLabel))
    | some driver => .accelerated driver

/-- A setting that cannot be followed is no error: software steps in, with a
warning. -/
def Setting.choose (setting : Setting) (build : Build) (installed : Option δ)
    (format : Format) : Choice δ :=
  let value := setting.value.getD ""
  if value = "" then .software none
  else if Text.sameLetters value acceleratorLabel then
    chooseAccelerator build installed format
  else .software (some (.invalidBackend value))

end StreamCodec.Backend
