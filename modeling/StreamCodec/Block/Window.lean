import StreamCodec.Block.Classes

namespace StreamCodec.Block

/-- The content written so far, as far back as a match may reach. -/
structure Window where
  recent : Array UInt8
  deriving DecidableEq, Repr

namespace Window

def empty : Window := ⟨#[]⟩

/-- Adds a byte. Twice the reach is kept at most, and at least the reach. -/
def push (window : Window) (byte : UInt8) : Window :=
  if window.recent.size < 2 * windowSize then ⟨window.recent.push byte⟩
  else ⟨(window.recent.extract windowSize).push byte⟩

def back? (window : Window) (distance : Nat) : Option UInt8 :=
  if distance ≤ window.recent.size then
    window.recent[window.recent.size - distance]?
  else none

end Window

end StreamCodec.Block
