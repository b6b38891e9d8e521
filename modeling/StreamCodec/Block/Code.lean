import StreamCodec.Block.Tree

namespace StreamCodec.Block

/-! Canonical codes: the codeword lengths fix the code, because shorter codewords
come first and equally long ones are in the order of their symbols. -/

structure Codeword where
  symbol : Nat
  length : Nat
  deriving DecidableEq, Repr

def longestCodeword : Nat := 15

def codewordsOfLengths (lengths : List Nat) : List Codeword :=
  let used := lengths.zipIdx.filter fun entry => entry.1 != 0
  (List.range longestCodeword).flatMap fun shorter =>
    (used.filter fun entry => entry.1 == shorter + 1).map fun entry =>
      { symbol := entry.2, length := entry.1 }

namespace Tree

/-- Fills the subtree at the given depth from the left and answers the codewords
that found no place in it. -/
def fill : (levels depth : Nat) → List Codeword → Tree × List Codeword
  | _, _, [] => (.gap, [])
  | 0, _, codeword :: rest => (.leaf codeword.symbol, rest)
  | levels + 1, depth, codeword :: rest =>
      if codeword.length ≤ depth then (.leaf codeword.symbol, rest)
      else
        let (zero, afterZero) := fill levels (depth + 1) (codeword :: rest)
        let (one, afterOne) := fill levels (depth + 1) afterZero
        (.node zero one, afterOne)

/-- The code without codewords: whatever bit comes, it fits none. -/
def barren : Tree := .node .gap .gap

/-- The canonical code, or `none` if the lengths promise more codewords than
there is room for. -/
def ofLengths? (lengths : List Nat) : Option Tree :=
  match codewordsOfLengths lengths with
  | [] => some barren
  | codewords =>
      match fill longestCodeword 0 codewords with
      | (tree, []) => some tree
      | _ => none

/-- A code for literals and lengths. It may leave codewords unused only if it is a
single codeword of one bit. -/
def ofLiteralLengths? (lengths : List Nat) : Option Tree :=
  match ofLengths? lengths with
  | none => none
  | some tree =>
      if tree.hasGap && (codewordsOfLengths lengths).map (·.length) != [1] then
        none
      else some tree

def ofDistanceLengths? (lengths : List Nat) : Option Tree :=
  if lengths.all (· == 0) then some barren else ofLiteralLengths? lengths

/-- A code for codeword lengths. It has to be complete. If no length has a
codeword, one bit of either value stands for the length zero. -/
def ofWidthLengths? (lengths : List Nat) : Option Tree :=
  if lengths.all (· == 0) then some (.node (.leaf 0) (.leaf 0))
  else
    match ofLengths? lengths with
    | none => none
    | some tree => if tree.hasGap then none else some tree

end Tree

def fixedLiteralLengths : List Nat :=
  List.replicate 144 8 ++ List.replicate 112 9 ++ List.replicate 24 7 ++
    List.replicate 8 8

def fixedDistanceLengths : List Nat :=
  List.replicate 32 5

def fixedLiterals : Tree :=
  (Tree.ofLengths? fixedLiteralLengths).getD .barren

def fixedDistances : Tree :=
  (Tree.ofLengths? fixedDistanceLengths).getD .barren

end StreamCodec.Block
