namespace StreamCodec.Text

def hex (width number : Nat) : String :=
  let digits := Nat.toDigits 16 number
  String.ofList (List.replicate (width - digits.length) '0' ++ digits)

end StreamCodec.Text
