namespace StreamCodec.Accelerator

inductive Failure
  | invalidParameters
  | failed
  | other (code : Int)
  deriving DecidableEq, Repr

def Failure.text : Failure → String
  | .invalidParameters => "params is invalid"
  | .failed => "function did not succeed"
  | .other code => s!"failed with error: {code}"

end StreamCodec.Accelerator
