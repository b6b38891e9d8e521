import StreamCodec.Format

namespace StreamCodec

/-! Lengths are words of 64 bits. A sum that does not fit is the largest word. -/

def largestLength : Nat := 1 <<< 64 - 1

def addLengths (first second : Nat) : Nat :=
  min (first + second) largestLength

/-- Enough for any stream, whichever way the engine chooses: an eighth and a
sixty-fourth more than the content, and the framing. -/
def deflateBound (length : Nat) (format : Format) : Nat :=
  let withEighth := addLengths length (addLengths length 7 >>> 3)
  let withSixtyFourth := addLengths withEighth (addLengths length 63 >>> 6)
  addLengths (addLengths withSixtyFourth 5) format.wrapperLength

/-- Some engines take a little more than they promise. -/
def boundSlack : Nat := 12

def maxCompressedLength (format : Format) (length : Nat) : Nat :=
  addLengths (deflateBound length format) boundSlack

end StreamCodec
