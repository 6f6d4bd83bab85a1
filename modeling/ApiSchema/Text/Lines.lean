import ApiSchema.Text.Blank
import ApiSchema.Text.Cut

/-!
Lines of a text and the layout of a documentation text: tabs become blanks, the common margin of
all lines but the first is removed, and empty lines at either end vanish.
-/
namespace ApiSchema.Text

def isLineEnd (c : Char) : Bool :=
  let n := c.toNat
  (10 ≤ n && n ≤ 13) || (28 ≤ n && n ≤ 30) || n == 0x85 || n == 0x2028 || n == 0x2029

/-- The lines of a text without their ends; a carriage return and a line feed end one line. The
accumulator holds the current line in reverse. -/
def linesFrom (current : List Char) : List Char → List (List Char)
  | [] => if current.isEmpty then [] else [current.reverse]
  | '\r' :: '\n' :: rest => current.reverse :: linesFrom [] rest
  | c :: rest => if isLineEnd c then current.reverse :: linesFrom [] rest else linesFrom (c :: current) rest

def lines (s : String) : List String :=
  (linesFrom [] s.toList).map String.ofList

/-- Tabs become blanks up to the next column that is a multiple of eight. -/
def expandTabs (column : Nat) : List Char → List Char
  | [] => []
  | c :: rest =>
    if c == '\t' then
      let width := 8 - column % 8
      List.replicate width ' ' ++ expandTabs (column + width) rest
    else if c == '\n' || c == '\r' then c :: expandTabs 0 rest
    else c :: expandTabs (column + 1) rest

/-- The number of blanks before the text of a line; `none` for an empty line. -/
def marginOf (line : List Char) : Option Nat :=
  let blanks := line.takeWhile isBlank
  if blanks.length == line.length then none else some blanks.length

def commonMargin (ls : List (List Char)) : Option Nat :=
  (ls.filterMap marginOf).min?

/-- A documentation text in its tidy layout. -/
def tidy (s : String) : String :=
  match splitList '\n' (expandTabs 0 s.toList) with
  | [] => ""
  | first :: others =>
    let body := match commonMargin others with
      | some n => others.map (·.drop n)
      | none => others
    let all := first.dropWhile isBlank :: body
    let kept := ((all.reverse.dropWhile (·.isEmpty)).reverse).dropWhile (·.isEmpty)
    join "\n" (kept.map String.ofList)

end ApiSchema.Text
