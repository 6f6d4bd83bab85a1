import ApiSchema.Text.Identifier

/-!
Characters of names in source text: those of identifiers, and letters and marks that newer versions
of the character tables add to them.
-/
namespace ApiSchema.Source.Lexer

open Text

/-- Further characters that may start a name. -/
def letterRanges : Ranges := .ofRuns [
  7305,2, 35648,3, 12,3, 24035,52, 1878,28, 9,23, 316,3, 890,2, 319,10, 1,1, 2,1, 1,38, 1,1, 25,1,
  1,1, 2028,33, 801,1, 1,13, 1,34, 5371,1, 17,6, 25,3995, 7429,30, 3106,45, 8082,1, 9266,1, 34,1,
  11727,6, 261,62, 1122,28, 228,30, 2,1, 53576,1, 13494,622, 9458,4192]

def letterMarkRanges : Ranges := .ofRuns [
  2199,1, 1115,1, 474,1, 4413,2, 4333,1, 52841,1, 3546,10, 31,5, 398,4, 833,1, 374,9, 1,1, 2,1, 1,4,
  1,5, 1,1, 14,2, 749,20, 1292,10, 774,2, 1,1, 48,7, 3,5, 13,10, 0,1, 5349,1, 6,15, 11464,28,
  3126,10, 24438,10, 5013,1, 1116,14, 244,2, 1,10]

def isNameStart (c : Char) : Bool :=
  isIdentifierStart c || (0x80 ≤ c.toNat && letterRanges.has c.toNat)

def isNameContinue (c : Char) : Bool :=
  isIdentifierContinue c ||
    (0x80 ≤ c.toNat && (letterRanges.has c.toNat || letterMarkRanges.has c.toNat))

/-- A non-empty text that is one name; reserved words count too. -/
def isName (s : String) : Bool :=
  match s.toList with
  | [] => false
  | c :: cs => isNameStart c && cs.all isNameContinue

end ApiSchema.Source.Lexer
