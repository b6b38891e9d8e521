import StreamCodec.Block.Code

namespace StreamCodec.Deflate

open Block

/-! Codeword lengths from the symbols' counts: the more frequent a symbol, the
shorter its codeword. -/

structure Weighed where
  weight : Nat
  tree : Tree

namespace Weighed

def placeIn (entry : Weighed) : List Weighed → List Weighed
  | [] => [entry]
  | first :: rest =>
      if entry.weight ≤ first.weight then entry :: first :: rest
      else first :: entry.placeIn rest

@[simp] theorem length_placeIn (entry : Weighed) (entries : List Weighed) :
    (entry.placeIn entries).length = entries.length + 1 := by
  induction entries with
  | nil => rfl
  | cons first rest induction =>
      unfold placeIn
      split
      · rfl
      · simp [induction]

def join : List Weighed → Tree
  | [] => .gap
  | [entry] => entry.tree
  | first :: second :: rest =>
      join (placeIn ⟨first.weight + second.weight,
        .node first.tree second.tree⟩ rest)
termination_by entries => entries.length
decreasing_by simp

end Weighed

def treeOfCounts (counts : List Nat) : Tree :=
  let used := counts.zipIdx.filter fun entry => entry.1 != 0
  Weighed.join (used.foldl
    (fun entries entry => Weighed.placeIn ⟨entry.1, .leaf entry.2⟩ entries) [])

/-- How deep the symbols below the given number are. A symbol at the root gets a
codeword of one bit, as there are no shorter ones. -/
def depths (tree : Tree) (symbols : Nat) : List Nat :=
  (tree.codewords.foldl
    (fun (depths : Array Nat) entry =>
      depths.setIfInBounds entry.1 (max 1 entry.2.length))
    (Array.replicate symbols 0)).toList

/-- Lengths up to the limit. As long as a codeword is too long the counts are
halved, which brings them closer together; what occurs goes on to count. -/
def lengthsWithin? (limit : Nat) (counts : List Nat) :
    (attempts : Nat) → Option (List Nat)
  | 0 => none
  | attempts + 1 =>
      let lengths := depths (treeOfCounts counts) counts.length
      if lengths.all (· ≤ limit) then some lengths
      else
        lengthsWithin? limit (counts.map fun count => (count + 1) / 2) attempts

/-- After so many halvings all counts in a block are equal. -/
def countBits : Nat := 17

def codewordLengths? (limit : Nat) (counts : List Nat) : Option (List Nat) :=
  lengthsWithin? limit counts (countBits + 1)

end StreamCodec.Deflate
