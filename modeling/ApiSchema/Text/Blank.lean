/-!
Blanks of every script, and texts without the blanks at their ends.
-/
namespace ApiSchema.Text

/-- Spaces, tabs, line ends and separators. -/
def isBlank (c : Char) : Bool :=
  let n := c.toNat
  (9 ≤ n && n ≤ 13) || (28 ≤ n && n ≤ 32) || n == 0x85 || n == 0xA0 || n == 0x1680 ||
    (0x2000 ≤ n && n ≤ 0x200A) || n == 0x2028 || n == 0x2029 || n == 0x202F || n == 0x205F ||
    n == 0x3000

def dropRightWhile (p : Char → Bool) (cs : List Char) : List Char :=
  (cs.reverse.dropWhile p).reverse

def stripLeftOf (p : Char → Bool) (s : String) : String :=
  String.ofList (s.toList.dropWhile p)

def stripRightOf (p : Char → Bool) (s : String) : String :=
  String.ofList (dropRightWhile p s.toList)

def stripOf (p : Char → Bool) (s : String) : String :=
  String.ofList (dropRightWhile p (s.toList.dropWhile p))

def strip (s : String) : String := stripOf isBlank s

def isBlankText (s : String) : Bool := s.toList.all isBlank

end ApiSchema.Text
