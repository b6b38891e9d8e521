import StreamCodec.Backend.Warning

namespace StreamCodec

inductive Mode
  | idle
  | compressing
  | decompressing
  deriving DecidableEq, Repr

def Mode.label : Mode → String
  | .idle => "idle"
  | .compressing => "compressing"
  | .decompressing => "decompressing"

namespace Log

inductive Severity
  | warning
  | debug
  | trace
  deriving DecidableEq, Repr

def Severity.label : Severity → String
  | .warning => "WARN"
  | .debug => "DEBUG"
  | .trace => "TRACE"

inductive Event
  | backendNotHonored (warning : Backend.Warning)
  | backendSelected (kind : Backend.Kind)
  | enteringCompression (origin : Mode)
  | enteringDecompression (origin : Mode)
  | sessionOpened (driver : String)
  deriving DecidableEq, Repr

namespace Event

def severity : Event → Severity
  | backendNotHonored _ => .warning
  | backendSelected _ | sessionOpened _ => .debug
  | enteringCompression _ | enteringDecompression _ => .trace

def message : Event → String
  | backendNotHonored warning => warning.text
  | backendSelected _ => "selected gzip backend"
  | enteringCompression _ => "gzip codec entering compression mode"
  | enteringDecompression _ => "gzip codec entering decompression mode"
  | sessionOpened _ => "opened accelerator session"

def detail : Event → String × String
  | backendNotHonored _ => ("setting", Backend.variableName)
  | backendSelected kind => ("backend", kind.label)
  | enteringCompression origin => ("from", origin.label)
  | enteringDecompression origin => ("from", origin.label)
  | sessionOpened driver => ("driver", driver)

end Event

end Log

end StreamCodec
