import StreamCodec.Format
import StreamCodec.Text.Quoted

namespace StreamCodec.Backend

inductive Kind
  | software
  | accelerated
  deriving DecidableEq, Repr

def Kind.label : Kind → String
  | .software => "Software"
  | .accelerated => "Accelerated"

def variableName : String := "CODEC_GZIP_BACKEND"

def acceleratorLabel : String := "QAT"

inductive Warning
  | notBuilt (label : String)
  | noDriver (label : String)
  | unsupportedFormat (label : String) (format : Format)
  | invalidBackend (value : String)
  deriving DecidableEq, Repr

namespace Warning

def text : Warning → String
  | notBuilt label => s!"support for gzip backend {label} not built, using software"
  | noDriver label =>
      s!"gzip backend {label} requested but no accelerator driver is installed, using software"
  | unsupportedFormat label format =>
      s!"gzip backend {label} cannot produce {format.label} framing, using software"
  | invalidBackend value =>
      s!"invalid backend for {variableName}: {value}, only {acceleratorLabel} is supported"

def debugText : Warning → String
  | notBuilt label => record "NotBuilt" s!"label: {Text.quoted label}"
  | noDriver label => record "NoDriver" s!"label: {Text.quoted label}"
  | unsupportedFormat label format =>
      record "UnsupportedFormat"
        s!"label: {Text.quoted label}, format: {format.label}"
  | invalidBackend value =>
      record "InvalidBackend" s!"value: {Text.quoted value}"
where
  record (name fields : String) : String :=
    name ++ " \x7b " ++ fields ++ " \x7d"

end Warning

end StreamCodec.Backend
