namespace StreamCodec.Text

def escaped (character : Char) : List Char :=
  if character = '"' ∨ character = '\\' then ['\\', character] else [character]

def quoted (text : String) : String :=
  String.ofList ('"' :: (text.toList.flatMap escaped ++ ['"']))

end StreamCodec.Text
