namespace StreamCodec.Block

/-- The numbers from `base` on that `extraBits` further bits tell apart. -/
structure NumberClass where
  base : Nat
  extraBits : Nat
  deriving DecidableEq, Repr

def endOfBlock : Nat := 256

def lengthClasses : List NumberClass :=
  [⟨3, 0⟩, ⟨4, 0⟩, ⟨5, 0⟩, ⟨6, 0⟩, ⟨7, 0⟩, ⟨8, 0⟩, ⟨9, 0⟩, ⟨10, 0⟩,
    ⟨11, 1⟩, ⟨13, 1⟩, ⟨15, 1⟩, ⟨17, 1⟩,
    ⟨19, 2⟩, ⟨23, 2⟩, ⟨27, 2⟩, ⟨31, 2⟩,
    ⟨35, 3⟩, ⟨43, 3⟩, ⟨51, 3⟩, ⟨59, 3⟩,
    ⟨67, 4⟩, ⟨83, 4⟩, ⟨99, 4⟩, ⟨115, 4⟩,
    ⟨131, 5⟩, ⟨163, 5⟩, ⟨195, 5⟩, ⟨227, 5⟩, ⟨258, 0⟩]

def distanceClasses : List NumberClass :=
  [⟨1, 0⟩, ⟨2, 0⟩, ⟨3, 0⟩, ⟨4, 0⟩, ⟨5, 1⟩, ⟨7, 1⟩, ⟨9, 2⟩, ⟨13, 2⟩,
    ⟨17, 3⟩, ⟨25, 3⟩, ⟨33, 4⟩, ⟨49, 4⟩, ⟨65, 5⟩, ⟨97, 5⟩, ⟨129, 6⟩,
    ⟨193, 6⟩, ⟨257, 7⟩, ⟨385, 7⟩, ⟨513, 8⟩, ⟨769, 8⟩, ⟨1025, 9⟩,
    ⟨1537, 9⟩, ⟨2049, 10⟩, ⟨3073, 10⟩, ⟨4097, 11⟩, ⟨6145, 11⟩,
    ⟨8193, 12⟩, ⟨12289, 12⟩, ⟨16385, 13⟩, ⟨24577, 13⟩]

def lengthClass? (symbol : Nat) : Option NumberClass :=
  if symbol ≤ endOfBlock then none
  else lengthClasses[symbol - (endOfBlock + 1)]?

def distanceClass? (symbol : Nat) : Option NumberClass :=
  distanceClasses[symbol]?

def classIndex (classes : List NumberClass) (number : Nat) : Nat :=
  (classes.takeWhile fun entry => entry.base ≤ number).length - 1

def shortestMatch : Nat := 3

def longestMatch : Nat := 258

def windowBits : Nat := 15

def windowSize : Nat := 1 <<< windowBits

end StreamCodec.Block
