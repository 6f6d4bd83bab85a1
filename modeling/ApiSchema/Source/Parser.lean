import ApiSchema.Source.Parser.Display
import ApiSchema.Source.Parser.Run

/-!
The parser of source text. `parse` gives the statements of a text and says whether the text is well
formed; of an ill formed text it keeps the statements before the one that cannot be read. The trees
are checked before they are given away, so that all that is parsed is regular.
-/
namespace ApiSchema.Source

namespace Parser

def vocabulary : Lexer.Vocabulary := Lexer.Vocabulary.of Grammar.tables.number

/-- Whether a part is neither a token of the grammar nor part of an unfinished statement. -/
def isFinished (d : Derivation) : Bool :=
  d.isExtra || Grammar.tables.number.terminals.size ≤ d.symbol

end Parser

/-- The statements of a source text, and whether the text is well formed. -/
structure Parsed where
  statements : List Tree
  complete : Bool
  regular : ∀ t ∈ statements, t.isRegular = true

/-- Statements that are regular; others are not given away. -/
def Parsed.of (statements : List Tree) (complete : Bool) : Parsed :=
  if h : statements.all Tree.isRegular = true then ⟨statements, complete, List.all_eq_true.1 h⟩
  else ⟨[], false, nofun⟩

def parse (source : String) : Parsed :=
  let chars := source.toList.toArray
  let page := Parser.Page.of chars
  let g := Grammar.tables
  match Parser.run ⟨g, Parser.vocabulary, chars⟩ with
  | .whole d => .of ((Parser.trees g page none none d).flatMap Tree.children) true
  | .broken parts =>
    .of ((parts.takeWhile Parser.isFinished).flatMap (Parser.trees g page none none)) false

end ApiSchema.Source
