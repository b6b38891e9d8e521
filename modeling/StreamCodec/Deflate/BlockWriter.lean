import StreamCodec.Checksum.Digest
import StreamCodec.Deflate.Codes
import StreamCodec.Deflate.Matching

namespace StreamCodec.Deflate

open Block

def blockLimit : Nat := 65535

/-- Whole bytes (in order) and the bits of a byte that is not full yet. -/
structure Output where
  bytes : Bytes
  carry : Bits
  deriving DecidableEq, Repr

namespace Output

def appendBits (output : Output) (bits : Bits) : Output :=
  let (bytes, carry) := (output.carry ++ bits).pack
  ⟨output.bytes ++ bytes, carry⟩

def align (output : Output) : Output :=
  ⟨output.bytes ++ output.carry.padded.pack.1, []⟩

def appendBytes (output : Output) (bytes : Bytes) : Output :=
  { output.align with bytes := output.align.bytes ++ bytes }

end Output

structure Draft where
  tokens : List Token
  codes : Codes
  size : Nat

namespace Draft

def ofTokens (tokens : List Token) : Draft :=
  let tally := Tally.ofTokens tokens
  let fixed : Draft := ⟨tokens, .fixed, Codes.fixed.size tally⟩
  match Codes.described? tally with
  | none => fixed
  | some codes =>
      if codes.covers tally && codes.size tally < fixed.size then
        ⟨tokens, codes, codes.size tally⟩
      else fixed

def smaller (first second : Draft) : Draft :=
  if second.size < first.size then second else first

/-- Short content of few different bytes may do better without repetitions. -/
def ofContent (window : Window) (content : Bytes) : Draft :=
  (ofTokens (tokenize window content)).smaller
    (ofTokens (content.map .literal))

def bits (draft : Draft) : Bits :=
  draft.codes.blockBits draft.tokens

end Draft

/-- The bits of a block that holds its content as it is, at most. -/
def storedSize (length : Nat) : Nat := 3 + 7 + 8 * (4 + length)

namespace Output

def appendStored (output : Output) (last : Bool) (content : Bytes) : Output :=
  let length := content.length
  (output.appendBits (last :: Bits.ofNat 2 0)).appendBytes
    (Bytes.littleEndian 2 length ++
      Bytes.littleEndian 2 (blockLimit - length) ++ content)

/-- Level zero stores, every other level takes the shortest block it finds. -/
def appendBlock (output : Output) (level : Fin 10) (last : Bool)
    (window : Window) (content : Bytes) : Output :=
  if level = 0 then output.appendStored last content
  else
    let bits := (Draft.ofContent window content).bits
    if bits.length < storedSize content.length then
      output.appendBits (last :: bits)
    else output.appendStored last content

end Output

/-- The second byte makes the pair a multiple of 31 and tells how hard the encoder
tried. -/
def zlibHeader (level : Fin 10) : Bytes :=
  if level.val ≤ 1 then [0x78, 0x01]
  else if level.val ≤ 5 then [0x78, 0x5e]
  else if level.val ≤ 6 then [0x78, 0x9c]
  else [0x78, 0xda]

def gzipHeader (level : Fin 10) : Bytes :=
  let effort : UInt8 :=
    if level.val = 9 then 2 else if level.val ≤ 1 then 4 else 0
  [0x1f, 0x8b, 8, 0, 0, 0, 0, 0, effort, 3]

def header (level : Fin 10) : Format → Bytes
  | .deflate => []
  | .zlib => zlibHeader level
  | .gzip => gzipHeader level

@[simp] theorem length_header (level : Fin 10) (format : Format) :
    (header level format).length = format.headerLength := by
  cases format with
  | deflate => rfl
  | zlib =>
      simp only [header, zlibHeader, Format.headerLength]
      split <;> (try split) <;> (try split) <;> rfl
  | gzip => rfl

end StreamCodec.Deflate
