import InfixArith.Table.Basic
import InfixArith.Text.Token

/-!
# Table — matching a token

Where several tokens of a level are prefixes of a text, the longest is taken, so that `**` is not
read as `*`.  The tokens are tried longest first.
-/

namespace InfixArith

namespace Entry

/-- Whether `a` is tried before `b`: its token has more bytes, or as many and comes first in byte
order, which is the order of the code points. -/
def triedBefore (a b : Entry) : Bool :=
  b.token.utf8ByteSize < a.token.utf8ByteSize ||
    (a.token.utf8ByteSize = b.token.utf8ByteSize && a.token < b.token)

/-- Puts `e` before the first entry it is tried before. -/
def insertCandidate (e : Entry) : List Entry → List Entry
  | []     => [e]
  | h :: t => if e.triedBefore h then e :: h :: t else h :: insertCandidate e t

end Entry

namespace Level

/-- The entries in the order in which they are tried. -/
def candidates (level : Level) : List Entry := level.entries.foldr Entry.insertCandidate []

/-- The first candidate whose token `s` begins with, and the text after the token. -/
def match? (level : Level) (s : List Char) : Option (Entry × List Char) :=
  Text.firstPrefix? (·.token.toList) level.candidates s

/-- The entry of a token. -/
def find? (level : Level) (token : String) : Option Entry :=
  level.entries.find? (·.token = token)

end Level

end InfixArith
