import StreamCodec.Proofs.Engine.Deflating

namespace StreamCodec.DeflateEngine

/-! What is asked of an engine that makes readable what it was fed. -/

variable {ε : Type} [DeflateEngine ε]

/-- What an engine may give to calls for a marker, one piece a call. -/
inductive MayMark : ε → (pieces : List Bytes) → Prop
  | nothing (engine : ε) : MayMark engine []
  | call {engine next : ε} {pieces : List Bytes} {room : Nat} {step : Step [] room}
      (ran : run engine .sync [] room = (.ok step, next))
      (later : MayMark next pieces) : MayMark engine (step.output :: pieces)

def markerLength : Nat := 6

/-- So much is pending that calls for a marker give no more than that and a marker
each. -/
def Pending (engine : ε) (pending : Nat) : Prop :=
  ∀ pieces, MayMark engine pieces →
    pieces.flatten.length ≤ pending + markerLength * pieces.length

/-- A call for a marker gives what is pending and then one marker at most, and if it
leaves room, all that was taken can be read. -/
structure Syncs (ε : Type) [DeflateEngine ε] (level : Fin 10) (format : Format)
    (grammar : Grammar) : Prop where
  pending {engine : ε} {taken given : Bytes} :
    Fed level format taken given engine → ∃ pending, Pending engine pending
  readable {engine next : ε} {taken given : Bytes} {room : Nat}
      {step : Step [] room} :
    Fed level format taken given engine →
      run engine .sync [] room = (.ok step, next) → step.output.length < room →
      grammar.read (given ++ step.output) = ⟨taken, .unfinished⟩

theorem Pending.call {engine next : ε} {pending room : Nat} {step : Step [] room}
    (pends : Pending engine pending)
    (ran : run engine .sync [] room = (.ok step, next)) :
    step.output.length ≤ pending + markerLength ∧
      Pending next (pending + markerLength - step.output.length) := by
  have further {pieces : List Bytes} (later : MayMark next pieces) :
      step.output.length + pieces.flatten.length ≤
        pending + markerLength * pieces.length + markerLength := by
    have bound := pends _ (.call ran later)
    rw [List.flatten_cons, List.length_append, List.length_cons,
      Nat.mul_succ] at bound
    exact bound
  refine ⟨further (.nothing next), fun pieces later => ?_⟩
  have first := further (.nothing next)
  have bound := further later
  simp only [List.flatten_nil, List.length_nil] at first
  omega

end StreamCodec.DeflateEngine
