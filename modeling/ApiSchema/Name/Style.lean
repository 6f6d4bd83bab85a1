import ApiSchema.Name.Snake

/-!
Name styles: how the words of a field name are put together in an interface.
-/
namespace ApiSchema.Name

open Text

inductive Style where
  | snake
  | kebab
  | camel
  | pascal
deriving DecidableEq, Repr

def Style.word : Style → String
  | .snake => "snake"
  | .kebab => "kebab"
  | .camel => "camel"
  | .pascal => "pascal"

def Style.name (s : Style) : String := s.word ++ "_case"

def Style.all : List Style := [.snake, .kebab, .camel, .pascal]

def Style.ofName? (name : String) : Option Style := Style.all.find? (·.name == name)

def Style.join : Style → List String → String
  | .snake, ws => Text.join "_" ws
  | .kebab, ws => Text.join "-" ws
  | .camel, [] => ""
  | .camel, w :: ws => w ++ String.join (ws.map capitalize)
  | .pascal, ws => String.join (ws.map capitalize)

/-- A name in a style; a name without words stays as it is. -/
def Style.apply (s : Style) (name : String) : String :=
  match words name with
  | [] => name
  | ws => s.join ws

/-- A name in the style of a name, which leaves it unchanged when there is no such style. -/
def restyle (name : String) (style : Option String) : String :=
  match style.bind Style.ofName? with
  | some s => s.apply name
  | none => name

end ApiSchema.Name
