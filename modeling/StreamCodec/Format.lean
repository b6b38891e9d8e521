namespace StreamCodec

inductive Format
  | deflate
  | zlib
  | gzip
  deriving DecidableEq, Repr

instance : Inhabited Format := ⟨.gzip⟩

namespace Format

def label : Format → String
  | .deflate => "Deflate"
  | .zlib => "Zlib"
  | .gzip => "Gzip"

def headerLength : Format → Nat
  | .deflate => 0
  | .zlib => 2
  | .gzip => 10

def trailerLength : Format → Nat
  | .deflate => 0
  | .zlib => 4
  | .gzip => 8

def wrapperLength (format : Format) : Nat :=
  format.headerLength + format.trailerLength

end Format

end StreamCodec
