namespace StreamCodec.Inflate

inductive Fault
  | headerCheck
  | compressionMethod
  | windowSize
  | headerFlags
  | headerChecksum
  | dictionary
  | blockType
  | storedLengths
  | symbolCounts
  | widthCode
  | widthRepeat
  | noEndOfBlock
  | literalCode
  | distanceCode
  | literalCodeword
  | distanceCodeword
  | distanceTooFar
  | contentChecksum
  | contentLength
  /-- An earlier call met another fault. -/
  | spent
  deriving DecidableEq, Repr

namespace Fault

def text? : Fault → Option String
  | headerCheck => some "incorrect header check"
  | compressionMethod => some "unknown compression method"
  | windowSize => some "invalid window size"
  | headerFlags => some "unknown header flags set"
  | headerChecksum => some "header crc mismatch"
  | dictionary => none
  | blockType => some "invalid block type"
  | storedLengths => some "invalid stored block lengths"
  | symbolCounts => some "too many length or distance symbols"
  | widthCode => some "invalid code lengths set"
  | widthRepeat => some "invalid bit length repeat"
  | noEndOfBlock => some "invalid code -- missing end-of-block"
  | literalCode => some "invalid literal/lengths set"
  | distanceCode => some "invalid distances set"
  | literalCodeword => some "invalid literal/length code"
  | distanceCodeword => some "invalid distance code"
  | distanceTooFar => some "invalid distance too far back"
  | contentChecksum => some "incorrect data check"
  | contentLength => some "incorrect length check"
  | spent => some "repeated call with bad state"

/-- What a further call reports: a dictionary is asked for again, any other fault
has spent the decoder. -/
def again : Fault → Fault
  | dictionary => dictionary
  | _ => spent

end Fault

end StreamCodec.Inflate
