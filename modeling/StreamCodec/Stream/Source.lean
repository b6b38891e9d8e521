import StreamCodec.Bytes

namespace StreamCodec

/-- What one read brought. No bytes at all mean the end. -/
inductive Delivery (room : Nat)
  | bytes (content : Bytes) (fits : content.length ≤ room)
  | interrupted
  | failed (text : String)

class Source (ρ : Type) where
  read : ρ → (room : Nat) → Delivery room × ρ

inductive Reading
  | upTo (count : Nat)
  | interrupted
  | failed (text : String)
  deriving DecidableEq, Repr

structure ScriptedSource where
  script : List Reading
  rest : Bytes
  reads : Nat

namespace ScriptedSource

def new (script : List Reading) (content : Bytes) : ScriptedSource :=
  ⟨script, content, 0⟩

def give (source : ScriptedSource) (count room : Nat) :
    Delivery room × ScriptedSource :=
  let length := min count room
  (.bytes (source.rest.take length)
      (Nat.le_trans (List.length_take_le _ _) (Nat.min_le_right _ _)),
    { source with rest := source.rest.drop length })

def read (source : ScriptedSource) (room : Nat) :
    Delivery room × ScriptedSource :=
  let source := { source with reads := source.reads + 1 }
  match source.script with
  | [] => source.give room room
  | reading :: script =>
      let source := { source with script := script }
      match reading with
      | .upTo count => source.give count room
      | .interrupted => (.interrupted, source)
      | .failed text => (.failed text, source)

instance : Source ScriptedSource := ⟨read⟩

end ScriptedSource

end StreamCodec
