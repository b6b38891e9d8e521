namespace StreamCodec.Text

/-! Letters are compared as ASCII: no other character has a case here. -/

def lowered (characters : List Char) : List Char :=
  characters.map Char.toLower

def sameLetters (first second : String) : Bool :=
  lowered first.toList == lowered second.toList

end StreamCodec.Text
