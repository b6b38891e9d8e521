import StreamCodec.Accelerator.Failure

namespace StreamCodec

/-! Errors are causes. Sessions, drivers, readers and writers of other origin bring
causes of their own, which are known by their text alone. -/

inductive SetupFault
  | levelOutOfRange (level minimum maximum : Int)
  | levelRejected (level : Int)
  | session (failure : Accelerator.Failure)
  | other (text : String)
  deriving DecidableEq, Repr

inductive Corruption
  | inflate (words : Option String)
  | truncated (consumed length : Nat)
  | endsEarly
  | other (text : String)
  deriving DecidableEq, Repr

inductive Unsupported
  | level (codec : String)
  | streamingCompression (driver : String)
  | streamingDecompression (driver : String)
  | other (text : String)
  deriving DecidableEq, Repr

inductive Missing
  | notBuilt (codec : String)
  | uncompressed
  | other (text : String)
  deriving DecidableEq, Repr

inductive Misuse
  | compressorInitialized
  | compressorNotInitialized
  | compressorEnded
  | decompressorInitialized
  | decompressorNotInitialized
  | streamFinished
  | emptyOutput (operation : String)
  | chunkSize (size largest : Nat)
  | sessionInUse (driver : String)
  | other (text : String)
  deriving DecidableEq, Repr

inductive Breach
  | endWithoutFinish
  | endDuringSync
  | compressorStuck
  | decompressorStuck
  | other (text : String)
  deriving DecidableEq, Repr

inductive CodecError
  | backendInit (engine : String) (fault : SetupFault)
  | backend (engine operation text : String)
  | bufferTooSmall (codec : String) (inputLength outputLength : Nat)
  | corruptInput (corruption : Corruption)
  | unsupportedOperation (operation : Unsupported)
  | notImplemented (missing : Missing)
  | unknownCodec (name : String)
  | invalidState (misuse : Misuse)
  | engineContract (breach : Breach)
  | io (text : String)
  deriving DecidableEq, Repr

def engineWords (words : Option String) : String :=
  words.getD "(unknown error)"

def SetupFault.text : SetupFault → String
  | .levelOutOfRange level minimum maximum =>
      s!"invalid compression level {level} (expected {minimum}..={maximum})"
  | .levelRejected level => s!"deflateInit2 rejected compression level {level}"
  | .session failure => s!"session setup {failure.text}"
  | .other text => text

def Corruption.text : Corruption → String
  | .inflate words => s!"zlib inflate failed: {engineWords words}"
  | .truncated consumed length =>
      s!"truncated gzip stream: {consumed} of {length} input bytes consumed without reaching stream end"
  | .endsEarly => "compressed stream ended before its end-of-stream marker"
  | .other text => text

def Unsupported.text : Unsupported → String
  | .level codec => s!"codec '{codec}' does not support setting a compression level"
  | .streamingCompression driver =>
      s!"streaming compression unsupported with {driver}"
  | .streamingDecompression driver =>
      s!"streaming decompression unsupported with {driver}"
  | .other text => text

def Missing.text : Missing → String
  | .notBuilt codec => s!"support for codec '{codec}' not built"
  | .uncompressed => "uncompressed data has no codec"
  | .other text => text

def Misuse.text : Misuse → String
  | .compressorInitialized => "compressor already initialized"
  | .compressorNotInitialized => "compressor not initialized"
  | .compressorEnded => "compressor already ended"
  | .decompressorInitialized => "decompressor already initialized"
  | .decompressorNotInitialized => "decompressor not initialized"
  | .streamFinished => "stream already finished, reset before reuse"
  | .emptyOutput operation => s!"{operation} needs a non-empty output buffer"
  | .chunkSize size largest => s!"chunk size {size} outside 1..={largest}"
  | .sessionInUse driver =>
      s!"{driver} accelerator session is already in use on this thread"
  | .other text => text

def Breach.text : Breach → String
  | .endWithoutFinish => "deflate reported stream end without a finish request"
  | .endDuringSync => "deflate reported stream end during a sync flush"
  | .compressorStuck => "compressor made no progress with a free output buffer"
  | .decompressorStuck =>
      "decompressor made no progress with a free output buffer"
  | .other text => text

def CodecError.message : CodecError → String
  | .backendInit engine fault => s!"{engine} init failed: {fault.text}"
  | .backend engine operation text => s!"{engine} {operation} failed: {text}"
  | .bufferTooSmall codec inputLength outputLength =>
      s!"too small a buffer passed to {codec} codec: input_len={inputLength} output_len={outputLength}"
  | .corruptInput corruption => s!"corrupt compressed input: {corruption.text}"
  | .unsupportedOperation operation =>
      s!"unsupported operation: {operation.text}"
  | .notImplemented missing => s!"not implemented: {missing.text}"
  | .unknownCodec name => s!"unknown compression codec: {name}"
  | .invalidState misuse => s!"invalid codec state: {misuse.text}"
  | .engineContract breach => s!"engine contract violated: {breach.text}"
  | .io text => s!"I/O error: {text}"

end StreamCodec
