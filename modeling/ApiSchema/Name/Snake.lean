import ApiSchema.Text.Case
import ApiSchema.Text.Cut

/-!
The snake case form of a name, in which all names are compared, and the words of a name.
-/
namespace ApiSchema.Name

open Text

/-- Whether a word ends between two characters: a lower case letter or digit, then a capital. -/
def isBoundary (a b : Char) : Bool := (a.isLower || a.isDigit) && b.isUpper

def separate : List Char → List Char
  | a :: b :: rest =>
    if isBoundary a b then a :: '_' :: separate (b :: rest) else a :: separate (b :: rest)
  | cs => cs

/-- The snake case form: words and hyphens separated by underscores, in lower case. -/
def toSnake (name : String) : String :=
  lower (String.ofList ((separate name.toList).map fun c => if c == '-' then '_' else c))

def words (name : String) : List String :=
  (split '_' (toSnake name)).filter (!·.isEmpty)

end ApiSchema.Name
