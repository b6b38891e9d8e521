import StreamCodec.Algorithm

namespace StreamCodec

inductive Level
  | default
  | exactly (level : Int)
  deriving DecidableEq, Repr

/-- The level in numbers. The default is taken as it is. -/
def Level.resolve (level : Level) (profile : Profile) : Except CodecError Int :=
  match level with
  | .default => .ok profile.defaultLevel
  | .exactly level =>
      if profile.minimumLevel ≤ level ∧ level ≤ profile.maximumLevel then
        .ok level
      else
        .error (.backendInit profile.name
          (.levelOutOfRange level profile.minimumLevel profile.maximumLevel))

end StreamCodec
