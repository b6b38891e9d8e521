import StreamCodec.Block.Token

namespace StreamCodec.Deflate

open Block

/-! Repetitions are looked for at the earlier places that begin with the same three
bytes. What is found is only a proposal: tokens are used if they rebuild the
content. -/

/-- Places that begin alike. A place is a position counted from one, and zero is
no place. -/
structure Places where
  latest : Array Nat
  earlier : Array Nat

namespace Places

def keys : Nat := 1 <<< 15

def empty : Places := ⟨Array.replicate keys 0, #[]⟩

def key (data : Array UInt8) (position : Nat) : Nat :=
  ((data.getD position 0).toNat * 1024 +
    (data.getD (position + 1) 0).toNat * 32 +
    (data.getD (position + 2) 0).toNat) % keys

def push (places : Places) (key : Nat) : Places :=
  match places with
  | ⟨latest, earlier⟩ =>
      let before := latest.getD key 0
      ⟨latest.setIfInBounds key (earlier.size + 1), earlier.push before⟩

def ofFirst (data : Array UInt8) : Nat → Places
  | 0 => empty
  | count + 1 => (ofFirst data count).push (key data count)

end Places

def agreement (data : Array UInt8) (earlier later : Nat) : Nat → Nat
  | 0 => 0
  | limit + 1 =>
      if later < data.size ∧ data.getD earlier 0 = data.getD later 0 then
        agreement data (earlier + 1) (later + 1) limit + 1
      else 0

structure Repetition where
  length : Nat
  distance : Nat

namespace Repetition

def none : Repetition := ⟨0, 0⟩

/-- Far away, a repetition of three bytes takes more than the bytes. -/
def isWorthwhile (repetition : Repetition) : Bool :=
  shortestMatch < repetition.length ||
    (repetition.length == shortestMatch && repetition.distance ≤ 4096)

end Repetition

def longest (data : Array UInt8) (places : Places) (position : Nat) :
    (tries place : Nat) → Repetition → Repetition
  | 0, _, best => best
  | _, 0, best => best
  | tries + 1, earlier + 1, best =>
      let distance := position - earlier
      if windowSize < distance ∨ best.length = longestMatch then best
      else
        let length :=
          if data.getD (earlier + best.length) 0 =
              data.getD (position + best.length) 0 then
            agreement data earlier position longestMatch
          else 0
        longest data places position tries (places.earlier.getD earlier 0)
          (if best.length < length then ⟨length, distance⟩ else best)

/-- Enough to find the whole length of a repetition in nearly all content. -/
def placesTried : Nat := 256

/-- Walks over the last `left` positions, of which the first `covered` belong to
the repetition proposed before. -/
def proposeFrom (data : Array UInt8) (places : Places) (covered : Nat)
    (proposed : List Token) : Nat → List Token
  | 0 => proposed.reverse
  | left + 1 =>
      let position := data.size - (left + 1)
      let key := Places.key data position
      match covered with
      | covered + 1 =>
          proposeFrom data (places.push key) covered proposed left
      | 0 =>
          let found :=
            longest data places position placesTried (places.latest.getD key 0)
              .none
          if found.isWorthwhile then
            proposeFrom data (places.push key) (found.length - 1)
              (.copy found.length found.distance :: proposed) left
          else
            proposeFrom data (places.push key) 0
              (.literal (data.getD position 0) :: proposed) left

def propose (window : Window) (content : Bytes) : List Token :=
  let reach := min windowSize window.recent.size
  let data :=
    window.recent.extract (window.recent.size - reach) ++ content.toArray
  proposeFrom data (Places.ofFirst data reach) 0 [] content.length

/-- Tokens that a block can hold and that rebuild the content. -/
def tokenize (window : Window) (content : Bytes) : List Token :=
  let proposed := propose window content
  if (∀ token ∈ proposed, token.Fits) ∧
      Token.expand? window proposed = some content then
    proposed
  else content.map .literal

end StreamCodec.Deflate
