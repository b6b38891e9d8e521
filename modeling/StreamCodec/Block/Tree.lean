import StreamCodec.Block.Bits

namespace StreamCodec.Block

/-- A code as the tree of its codewords. A path that ends in `gap` belongs to no
codeword. -/
inductive Tree
  | gap
  | leaf (symbol : Nat)
  | node (zero one : Tree)
  deriving DecidableEq, Repr

namespace Tree

def child : Tree → Bool → Tree
  | .node zero _, false => zero
  | .node _ one, true => one
  | _, _ => .gap

def codewords : Tree → List (Nat × Bits)
  | .gap => []
  | .leaf symbol => [(symbol, [])]
  | .node zero one =>
      zero.codewords.map (fun entry => (entry.1, false :: entry.2)) ++
        one.codewords.map (fun entry => (entry.1, true :: entry.2))

def hasGap : Tree → Bool
  | .gap => true
  | .leaf _ => false
  | .node zero one => zero.hasGap || one.hasGap

end Tree

end StreamCodec.Block
