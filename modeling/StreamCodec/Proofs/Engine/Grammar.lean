import StreamCodec.Engine.Basic

namespace StreamCodec

/-! What the bytes of a format say, however they are cut into calls. -/

inductive Verdict
  | unfinished
  | complete
  | faulty
  deriving DecidableEq, Repr

structure Meaning where
  /-- What comes before the end of the stream, the fault, or the end of the bytes. -/
  content : Bytes
  verdict : Verdict
  deriving DecidableEq, Repr

/-- There is content behind what is written, or a fault. -/
def Meaning.GoesBeyond (meaning : Meaning) (written : Bytes) : Prop :=
  meaning.content ≠ written ∨ meaning.verdict = .faulty

/-- Bytes are read from the front, so further bytes revoke nothing, and nothing
counts behind the end of the stream or a fault. Before the first byte nothing is
settled. -/
structure Grammar where
  read : Bytes → Meaning
  read_nil : read [] = ⟨[], .unfinished⟩
  content_append (bytes more : Bytes) :
    (read bytes).content <+: (read (bytes ++ more)).content
  read_append (bytes more : Bytes) :
    (read bytes).verdict ≠ .unfinished → read (bytes ++ more) = read bytes

namespace Grammar

variable {grammar : Grammar} {bytes content : Bytes}

structure IsStream (grammar : Grammar) (bytes content : Bytes) : Prop where
  read_eq : grammar.read bytes = ⟨content, .complete⟩
  unfinished_of_prefix {shorter : Bytes} :
    shorter <+: bytes → shorter ≠ bytes →
      (grammar.read shorter).verdict = .unfinished

theorem IsStream.read_append (isStream : grammar.IsStream bytes content)
    (trailing : Bytes) :
    grammar.read (bytes ++ trailing) = ⟨content, .complete⟩ := by
  have ended : (grammar.read bytes).verdict ≠ .unfinished := by
    simp [isStream.read_eq]
  rw [grammar.read_append bytes trailing ended, isStream.read_eq]

theorem read_append_of_faulty {more : Bytes}
    (faulty : (grammar.read bytes).verdict = .faulty) :
    grammar.read (bytes ++ more) = grammar.read bytes := by
  apply grammar.read_append
  simp [faulty]

theorem unfinished_of_append {more : Bytes}
    (unfinished : (grammar.read (bytes ++ more)).verdict = .unfinished) :
    (grammar.read bytes).verdict = .unfinished := by
  refine Decidable.byContradiction fun settled => ?_
  rw [grammar.read_append bytes more settled] at unfinished
  exact settled unfinished

end Grammar

namespace Transfer

variable {input : Bytes} {room : Nat}

def taken (transfer : Transfer input room) : Bytes :=
  input.take transfer.consumed

@[simp] theorem taken_append_rest (transfer : Transfer input room) :
    transfer.taken ++ transfer.rest = input :=
  List.take_append_drop transfer.consumed input

theorem taken_eq_of_rest {transfer : Transfer input room}
    (usedUp : transfer.rest = []) : transfer.taken = input := by
  have whole := transfer.taken_append_rest
  rwa [usedUp, List.append_nil] at whole

theorem rest_eq_of_taken {transfer : Transfer input room}
    (allTaken : transfer.taken = input) : transfer.rest = [] := by
  have whole := transfer.taken_append_rest
  rwa [allTaken, List.append_right_eq_self] at whole

theorem taken_of_isIdle {transfer : Transfer input room}
    (idle : transfer.IsIdle) : transfer.taken = [] := by
  simp [taken, idle.1]

theorem taken_of_nil (transfer : Transfer [] room) : transfer.taken = [] :=
  List.take_nil

end Transfer

end StreamCodec
