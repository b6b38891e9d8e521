import StreamCodec.Block.Bits

namespace StreamCodec.Block

/-! A block that brings its own codes describes them by their codewords' lengths,
and these are written in a code of their own. -/

def widthOrder : List Nat :=
  [16, 17, 18, 0, 8, 7, 9, 6, 10, 5, 11, 4, 12, 3, 13, 2, 14, 1, 15]

def arrangeWidths (read : List Nat) : List Nat :=
  let known := widthOrder.zip read
  (List.range widthOrder.length).map fun symbol =>
    (known.lookup symbol).getD 0

inductive WidthRun
  | single (width : Nat)
  /-- The width before it, so many times more. -/
  | previous (count : Nat)
  | zeros (count : Nat)
  deriving DecidableEq, Repr

namespace WidthRun

def symbol : WidthRun → Nat
  | single width => width
  | previous _ => 16
  | zeros count => if count ≤ 10 then 17 else 18

def extra : WidthRun → Bits
  | single _ => []
  | previous count => Bits.ofNat 2 (count - 3)
  | zeros count =>
      if count ≤ 10 then Bits.ofNat 3 (count - 3) else Bits.ofNat 7 (count - 11)

def ofZeros (count : Nat) : List WidthRun :=
  if count < 3 then List.replicate count (single 0)
  else zeros (min count 138) :: ofZeros (count - 138)
termination_by count

def ofMore (width count : Nat) : List WidthRun :=
  if count < 3 then List.replicate count (single width)
  else previous (min count 6) :: ofMore width (count - 6)
termination_by count

def ofEqual (width count : Nat) : List WidthRun :=
  if width = 0 then ofZeros count
  else single width :: ofMore width (count - 1)

def ofWidths : List Nat → List WidthRun
  | [] => []
  | width :: rest =>
      let more := (rest.takeWhile (· == width)).length
      ofEqual width (more + 1) ++ ofWidths (rest.drop more)
termination_by widths => widths.length
decreasing_by simp only [List.length_drop, List.length_cons]; omega

end WidthRun

end StreamCodec.Block
