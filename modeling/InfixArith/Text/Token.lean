/-!
# Text — tokens

Which of several spellings a text begins with.
-/

namespace InfixArith.Text

/-- The first of `xs` whose spelling `s` begins with, and the text after it. -/
def firstPrefix? {α : Type} (spelling : α → List Char) (xs : List α) (s : List Char) :
    Option (α × List Char) :=
  xs.findSome? fun x => ((spelling x).isPrefixOf? s).map fun rest => (x, rest)

end InfixArith.Text
