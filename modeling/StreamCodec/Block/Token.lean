import StreamCodec.Block.Window
import StreamCodec.Bytes

namespace StreamCodec.Block

inductive Token
  | literal (byte : UInt8)
  /-- Repeats what stands `distance` bytes back, byte by byte, so that it may
  repeat itself. -/
  | copy (length distance : Nat)
  deriving DecidableEq, Repr

/-- Content as it is being rebuilt, latest byte first. -/
structure Expansion where
  window : Window
  content : Bytes

namespace Expansion

def start (window : Window) : Expansion := ⟨window, []⟩

def push (expansion : Expansion) (byte : UInt8) : Expansion :=
  ⟨expansion.window.push byte, byte :: expansion.content⟩

def copy? (expansion : Expansion) (distance : Nat) : Nat → Option Expansion
  | 0 => some expansion
  | length + 1 =>
      match expansion.window.back? distance with
      | none => none
      | some byte => (expansion.push byte).copy? distance length

def expand? (expansion : Expansion) : List Token → Option Expansion
  | [] => some expansion
  | .literal byte :: rest => (expansion.push byte).expand? rest
  | .copy length distance :: rest =>
      match expansion.copy? distance length with
      | none => none
      | some copied => copied.expand? rest

end Expansion

namespace Token

def expand? (window : Window) (tokens : List Token) : Option Bytes :=
  ((Expansion.start window).expand? tokens).map fun expansion =>
    expansion.content.reverse

def Fits : Token → Prop
  | .literal _ => True
  | .copy length distance =>
      shortestMatch ≤ length ∧ length ≤ longestMatch ∧ 1 ≤ distance ∧
        distance ≤ windowSize

instance (token : Token) : Decidable token.Fits := by
  cases token <;> unfold Fits <;> infer_instance

end Token

end StreamCodec.Block
