import StreamCodec.Block.Code
import StreamCodec.Block.Description
import StreamCodec.Block.Window
import StreamCodec.Checksum.Digest
import StreamCodec.Inflate.Fault

namespace StreamCodec.Inflate

open Block

structure HeaderFlags where
  checksum : Bool
  extra : Bool
  name : Bool
  comment : Bool
  deriving DecidableEq, Repr

def HeaderFlags.ofNat (bits : Nat) : HeaderFlags where
  checksum := bits.testBit 1
  extra := bits.testBit 2
  name := bits.testBit 3
  comment := bits.testBit 4

inductive HeaderField
  | magic
  | method
  | time (flags : HeaderFlags)
  | origin (flags : HeaderFlags)
  | extraLength (flags : HeaderFlags)
  | extra (flags : HeaderFlags) (left : Nat)
  | name (flags : HeaderFlags)
  | comment (flags : HeaderFlags)
  deriving DecidableEq, Repr

inductive Field
  | zlibHead
  | dictionary
  | header (field : HeaderField)
  | headerChecksum
  | storedLengths
  | contentChecksum
  | contentLength
  deriving DecidableEq, Repr

structure Preamble where
  literalCount : Nat
  /-- Codeword lengths still to come, for both codes together. -/
  left : Nat
  code : Tree
  /-- The codeword lengths read so far, latest first. -/
  widths : List Nat
  deriving DecidableEq, Repr

inductive Number
  | blockHead
  | symbolCounts
  | width (literalCount distanceCount left : Nat) (read : List Nat)
  | repeatPrevious (preamble : Preamble)
  | repeatZero (base : Nat) (preamble : Preamble)
  | lengthExtra (base : Nat)
  | distanceExtra (length base : Nat)
  deriving DecidableEq, Repr

inductive Alphabet
  | literals
  | distances (length : Nat)
  | widths (preamble : Preamble)
  deriving DecidableEq, Repr

/-- What the decoder waits for. -/
inductive Phase
  /-- More bytes of a field. Those read are latest first, as are bits below. -/
  | octets (field : Field) (left : Nat) (read : Bytes)
  | bits (number : Number) (left : Nat) (read : Bits)
  | symbol (alphabet : Alphabet) (code : Tree)
  | stored (left : Nat)
  | literal (byte : UInt8)
  | copy (length distance : Nat)
  | finished
  | failed (fault : Fault)
  deriving DecidableEq, Repr

structure Decoder where
  format : Format
  phase : Phase
  /-- The bits of the latest byte that no element has needed yet. -/
  hold : Bits
  last : Bool
  literals : Tree
  distances : Tree
  window : Window
  digest : Digest
  header : Crc
  deriving DecidableEq, Repr

namespace Decoder

/-! One element is read at a time, and a byte is taken only when the element at
hand needs it. -/

def expect (decoder : Decoder) (field : Field) (length : Nat) : Decoder :=
  { decoder with phase := .octets field length [] }

def gather (decoder : Decoder) (number : Number) (width : Nat) : Decoder :=
  { decoder with phase := .bits number width [] }

def fail (decoder : Decoder) (fault : Fault) : Decoder :=
  { decoder with phase := .failed fault }

def openBlock (decoder : Decoder) : Decoder :=
  decoder.gather .blockHead 3

def readLiteral (decoder : Decoder) : Decoder :=
  { decoder with phase := .symbol .literals decoder.literals }

def start (format : Format) : Decoder :=
  let blank : Decoder :=
    { format := format, phase := .finished, hold := [], last := false,
      literals := .barren, distances := .barren, window := Window.empty,
      digest := Digest.start format, header := Crc.start }
  match format with
  | .deflate => blank.openBlock
  | .zlib => blank.expect .zlibHead 2
  | .gzip => blank.expect (.header .magic) 2

def finish (decoder : Decoder) : Decoder :=
  { decoder with phase := .finished }

def closeBlock (decoder : Decoder) : Decoder :=
  if !decoder.last then decoder.openBlock
  else if decoder.digest.checkBytes.isEmpty then decoder.finish
  else decoder.expect .contentChecksum 4

/-! The optional parts of a gzip header, in their order. -/

def expectHeader (decoder : Decoder) (field : HeaderField) (length : Nat) :
    Decoder :=
  decoder.expect (.header field) length

def expectHeaderChecksum (decoder : Decoder) (flags : HeaderFlags) : Decoder :=
  if flags.checksum then decoder.expect .headerChecksum 2 else decoder.openBlock

def expectComment (decoder : Decoder) (flags : HeaderFlags) : Decoder :=
  if flags.comment then decoder.expectHeader (.comment flags) 1
  else decoder.expectHeaderChecksum flags

def expectName (decoder : Decoder) (flags : HeaderFlags) : Decoder :=
  if flags.name then decoder.expectHeader (.name flags) 1
  else decoder.expectComment flags

def expectExtraByte (decoder : Decoder) (flags : HeaderFlags) : Nat → Decoder
  | 0 => decoder.expectName flags
  | left + 1 => decoder.expectHeader (.extra flags left) 1

def expectExtra (decoder : Decoder) (flags : HeaderFlags) : Decoder :=
  if flags.extra then decoder.expectHeader (.extraLength flags) 2
  else decoder.expectName flags

def closeHeaderField (decoder : Decoder) (value : Nat) : HeaderField → Decoder
  | .magic =>
      if value = 0x8b1f then decoder.expectHeader .method 2
      else decoder.fail .headerCheck
  | .method =>
      if value % 256 ≠ 8 then decoder.fail .compressionMethod
      else if value / 8192 ≠ 0 then decoder.fail .headerFlags
      else decoder.expectHeader (.time (HeaderFlags.ofNat (value / 256))) 4
  | .time flags => decoder.expectHeader (.origin flags) 2
  | .origin flags => decoder.expectExtra flags
  | .extraLength flags => decoder.expectExtraByte flags value
  | .extra flags left => decoder.expectExtraByte flags left
  | .name flags =>
      if value = 0 then decoder.expectComment flags
      else decoder.expectHeader (.name flags) 1
  | .comment flags =>
      if value = 0 then decoder.expectHeaderChecksum flags
      else decoder.expectHeader (.comment flags) 1

def closeField (decoder : Decoder) (field : Field) (bytes : Bytes) : Decoder :=
  let value := Bytes.ofLittleEndian bytes
  match field with
  | .zlibHead =>
      if (value % 256 * 256 + value / 256) % 31 ≠ 0 then
        decoder.fail .headerCheck
      else if value % 16 ≠ 8 then decoder.fail .compressionMethod
      else if value % 256 / 16 > 7 then decoder.fail .windowSize
      else if value.testBit 13 then decoder.expect .dictionary 4
      else decoder.openBlock
  | .dictionary => decoder.fail .dictionary
  | .header field =>
      let read := { decoder with header := decoder.header.pushAll bytes }
      read.closeHeaderField value field
  | .headerChecksum =>
      if value ≠ decoder.header.value % 65536 then decoder.fail .headerChecksum
      else decoder.openBlock
  | .storedLengths =>
      let length := value % 65536
      if length + value / 65536 ≠ 65535 then decoder.fail .storedLengths
      else if length = 0 then decoder.closeBlock
      else { decoder with phase := .stored length }
  | .contentChecksum =>
      if bytes ≠ decoder.digest.checkBytes then decoder.fail .contentChecksum
      else if decoder.digest.sizeBytes.isEmpty then decoder.finish
      else decoder.expect .contentLength 4
  | .contentLength =>
      if bytes ≠ decoder.digest.sizeBytes then decoder.fail .contentLength
      else decoder.finish

/-! The preamble of a block that describes its own codes. -/

def openCodes (decoder : Decoder) (literalLengths distanceLengths : List Nat) :
    Decoder :=
  if literalLengths.getD endOfBlock 0 = 0 then decoder.fail .noEndOfBlock
  else
    match Tree.ofLiteralLengths? literalLengths with
    | none => decoder.fail .literalCode
    | some literals =>
        match Tree.ofDistanceLengths? distanceLengths with
        | none => decoder.fail .distanceCode
        | some distances =>
            readLiteral
              { decoder with literals := literals, distances := distances }

def readWidth (decoder : Decoder) (preamble : Preamble) : Decoder :=
  if preamble.left = 0 then
    let widths := preamble.widths.reverse
    decoder.openCodes (widths.take preamble.literalCount)
      (widths.drop preamble.literalCount)
  else { decoder with phase := .symbol (.widths preamble) preamble.code }

def recordWidths (decoder : Decoder) (preamble : Preamble)
    (count width : Nat) : Decoder :=
  if count > preamble.left then decoder.fail .widthRepeat
  else
    decoder.readWidth
      { preamble with
        left := preamble.left - count
        widths := List.replicate count width ++ preamble.widths }

def openPreamble (decoder : Decoder) (literalCount distanceCount : Nat)
    (lengths : List Nat) : Decoder :=
  match Tree.ofWidthLengths? lengths with
  | none => decoder.fail .widthCode
  | some code =>
      decoder.readWidth
        { literalCount := literalCount, left := literalCount + distanceCount,
          code := code, widths := [] }

/-! What happens when a number or a codeword is complete. -/

def closeNumber (decoder : Decoder) (number : Number) (value : Nat) : Decoder :=
  match number with
  | .blockHead =>
      let opened := { decoder with last := value.testBit 0 }
      match value / 2 with
      | 0 => opened.expect .storedLengths 4
      | 1 =>
          readLiteral
            { opened with
              literals := fixedLiterals, distances := fixedDistances }
      | 2 => opened.gather .symbolCounts 14
      | _ => opened.fail .blockType
  | .symbolCounts =>
      let literalCount := value % 32 + 257
      let distanceCount := value / 32 % 32 + 1
      if literalCount > 286 ∨ distanceCount > 30 then
        decoder.fail .symbolCounts
      else
        decoder.gather
          (.width literalCount distanceCount (value / 1024 + 3) []) 3
  | .width literalCount distanceCount left read =>
      match left with
      | 0 =>
          decoder.openPreamble literalCount distanceCount
            (arrangeWidths (value :: read).reverse)
      | left + 1 =>
          decoder.gather
            (.width literalCount distanceCount left (value :: read)) 3
  | .repeatPrevious preamble =>
      match preamble.widths with
      | [] => decoder.fail .widthRepeat
      | width :: _ => decoder.recordWidths preamble (3 + value) width
  | .repeatZero base preamble => decoder.recordWidths preamble (base + value) 0
  | .lengthExtra base =>
      { decoder with
        phase := .symbol (.distances (base + value)) decoder.distances }
  | .distanceExtra length base =>
      { decoder with phase := .copy length (base + value) }

def closeSymbol (decoder : Decoder) (alphabet : Alphabet) (symbol : Nat) :
    Decoder :=
  match alphabet with
  | .literals =>
      if symbol < endOfBlock then
        { decoder with phase := .literal (UInt8.ofNat symbol) }
      else if symbol = endOfBlock then decoder.closeBlock
      else
        match lengthClass? symbol with
        | none => decoder.fail .literalCodeword
        | some ⟨base, 0⟩ => decoder.closeNumber (.lengthExtra base) 0
        | some ⟨base, extraBits⟩ => decoder.gather (.lengthExtra base) extraBits
  | .distances length =>
      match distanceClass? symbol with
      | none => decoder.fail .distanceCodeword
      | some ⟨base, 0⟩ => decoder.closeNumber (.distanceExtra length base) 0
      | some ⟨base, extraBits⟩ =>
          decoder.gather (.distanceExtra length base) extraBits
  | .widths preamble =>
      match symbol with
      | 16 => decoder.gather (.repeatPrevious preamble) 2
      | 17 => decoder.gather (.repeatZero 3 preamble) 3
      | 18 => decoder.gather (.repeatZero 11 preamble) 7
      | width => decoder.recordWidths preamble 1 width

def missing : Alphabet → Fault
  | .literals => .literalCodeword
  | .distances _ => .distanceCodeword
  | .widths _ => .widthCode

def takeBit (decoder : Decoder) (bit : Bool) : Decoder :=
  match decoder.phase with
  | .bits number left read =>
      if left ≤ 1 then
        decoder.closeNumber number (Bits.toNat (bit :: read).reverse)
      else { decoder with phase := .bits number (left - 1) (bit :: read) }
  | .symbol alphabet code =>
      match code.child bit with
      | .gap => decoder.fail (missing alphabet)
      | .leaf symbol => decoder.closeSymbol alphabet symbol
      | rest => { decoder with phase := .symbol alphabet rest }
  | _ => decoder

/-- Takes bits until something else than a bit is called for. A field starts at a
byte boundary, so what is left of the byte before it is dropped. -/
def takeBits (decoder : Decoder) : Bits → Decoder
  | [] => { decoder with hold := [] }
  | bit :: rest =>
      match decoder.phase with
      | .bits .. | .symbol .. => (decoder.takeBit bit).takeBits rest
      | .literal .. | .copy .. => { decoder with hold := bit :: rest }
      | _ => { decoder with hold := [] }

def takeByte (decoder : Decoder) (byte : UInt8) : Decoder :=
  match decoder.phase with
  | .octets field left read =>
      if left ≤ 1 then decoder.closeField field (byte :: read).reverse
      else { decoder with phase := .octets field (left - 1) (byte :: read) }
  | .bits .. | .symbol .. => decoder.takeBits (Bits.ofByte byte)
  | _ => decoder

/-! Content leaves the decoder one byte at a time. -/

def record (decoder : Decoder) (byte : UInt8) (phase : Phase) : Decoder :=
  { decoder with
    phase := phase
    window := decoder.window.push byte
    digest := decoder.digest.push byte }

/-- After a literal or a match the bits that are left over come first. -/
def resume (decoder : Decoder) : Decoder :=
  decoder.readLiteral.takeBits decoder.hold

/-- The content still to come of a stored block passes through. -/
def takeStored (decoder : Decoder) (byte : UInt8) (left : Nat) : Decoder :=
  if left ≤ 1 then (decoder.record byte .finished).closeBlock
  else decoder.record byte (.stored (left - 1))

def giveLiteral (decoder : Decoder) (byte : UInt8) : Decoder :=
  (decoder.record byte .finished).resume

def giveCopied (decoder : Decoder) (byte : UInt8) (length distance : Nat) :
    Decoder :=
  if length ≤ 1 then (decoder.record byte .finished).resume
  else decoder.record byte (.copy (length - 1) distance)

end Decoder

end StreamCodec.Inflate
