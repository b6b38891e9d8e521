import StreamCodec.Block.Classes
import StreamCodec.Block.Description
import StreamCodec.Block.Token
import StreamCodec.Deflate.Lengths

namespace StreamCodec.Deflate

open Block

/-! A block's tokens are written in a code for literals and lengths and a code for
distances. -/

def lengthSymbol (length : Nat) : Nat :=
  endOfBlock + 1 + classIndex lengthClasses length

def distanceSymbol (distance : Nat) : Nat :=
  classIndex distanceClasses distance

def extraBits (classes : List NumberClass) (number : Nat) : Bits :=
  match classes[classIndex classes number]? with
  | none => []
  | some entry => Bits.ofNat entry.extraBits (number - entry.base)

/-- How often the symbols of a block occur, and the bits besides. -/
structure Tally where
  literals : Array Nat
  distances : Array Nat
  extra : Nat

namespace Tally

def start : Tally where
  literals := (Array.replicate 286 0).setIfInBounds endOfBlock 1
  distances := Array.replicate 30 0
  extra := 0

def add : Tally → Token → Tally
  | ⟨literals, distances, extra⟩, .literal byte =>
      ⟨literals.modify byte.toNat (· + 1), distances, extra⟩
  | ⟨literals, distances, extra⟩, .copy length distance =>
      ⟨literals.modify (lengthSymbol length) (· + 1),
        distances.modify (distanceSymbol distance) (· + 1),
        extra + (extraBits lengthClasses length).length +
          (extraBits distanceClasses distance).length⟩

def ofTokens (tokens : List Token) : Tally :=
  tokens.foldl add start

end Tally

def codewordTable (tree : Tree) (symbols : Nat) : Array Bits :=
  let codewords := tree.codewords
  (Array.range symbols).map fun symbol => (codewords.lookup symbol).getD []

def covers (table : Array Bits) (counts : Array Nat) : Bool :=
  (List.range counts.size).all fun symbol =>
    counts.getD symbol 0 == 0 || !(table.getD symbol []).isEmpty

structure Codes where
  head : Bits
  literals : Array Bits
  distances : Array Bits

namespace Codes

def fixed : Codes where
  head := Bits.ofNat 2 1
  literals := codewordTable fixedLiterals fixedLiteralLengths.length
  distances := codewordTable fixedDistances fixedDistanceLengths.length

/-- Leaves zeros at the end away, but never goes below the least length. -/
def trimmed (least : Nat) (widths : List Nat) : List Nat :=
  widths.take (max least (widths.reverse.dropWhile (· == 0)).length)

def longestWidthCodeword : Nat := 7

def description? (literalLengths distanceLengths : List Nat) : Option Bits := do
  let runs := WidthRun.ofWidths (literalLengths ++ distanceLengths)
  let counts := runs.foldl (fun counts run => counts.modify run.symbol (· + 1))
    (Array.replicate widthOrder.length 0)
  let widths ← codewordLengths? longestWidthCodeword counts.toList
  let tree ← Tree.ofWidthLengths? widths
  let table := codewordTable tree widthOrder.length
  let ordered := trimmed 4 (widthOrder.map fun symbol => widths.getD symbol 0)
  guard (Deflate.covers table counts)
  return Bits.ofNat 5 (literalLengths.length - 257) ++
    Bits.ofNat 5 (distanceLengths.length - 1) ++
    Bits.ofNat 4 (ordered.length - 4) ++ ordered.flatMap (Bits.ofNat 3) ++
    runs.flatMap fun run => table.getD run.symbol [] ++ run.extra

def described? (tally : Tally) : Option Codes := do
  let literalLengths ← codewordLengths? longestCodeword tally.literals.toList
  let distanceLengths ← codewordLengths? longestCodeword tally.distances.toList
  let literalLengths := trimmed 257 literalLengths
  let distanceLengths := trimmed 1 distanceLengths
  let literals ← Tree.ofLiteralLengths? literalLengths
  let distances ← Tree.ofDistanceLengths? distanceLengths
  let description ← description? literalLengths distanceLengths
  return {
    head := Bits.ofNat 2 2 ++ description
    literals := codewordTable literals literalLengths.length
    distances := codewordTable distances distanceLengths.length }

def covers (codes : Codes) (tally : Tally) : Bool :=
  Deflate.covers codes.literals tally.literals &&
    Deflate.covers codes.distances tally.distances

def size (codes : Codes) (tally : Tally) : Nat :=
  codes.head.length + tally.extra + written tally.literals codes.literals +
    written tally.distances codes.distances
where
  written (counts : Array Nat) (table : Array Bits) : Nat :=
    (counts.toList.zip table.toList).foldl (fun size entry =>
      size + entry.1 * entry.2.length) 0

def literalBits (codes : Codes) (symbol : Nat) : Bits :=
  codes.literals.getD symbol []

def distanceBits (codes : Codes) (symbol : Nat) : Bits :=
  codes.distances.getD symbol []

def tokenBits (codes : Codes) : Token → Bits
  | .literal byte => codes.literalBits byte.toNat
  | .copy length distance =>
      codes.literalBits (lengthSymbol length) ++ extraBits lengthClasses length ++
        codes.distanceBits (distanceSymbol distance) ++
        extraBits distanceClasses distance

def blockBits (codes : Codes) (tokens : List Token) : Bits :=
  codes.head ++ tokens.flatMap codes.tokenBits ++ codes.literalBits endOfBlock

end Codes

end StreamCodec.Deflate
