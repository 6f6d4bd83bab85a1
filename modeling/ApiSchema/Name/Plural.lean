import ApiSchema.Entries
import ApiSchema.Name.Snake

/-!
Plural names, which stand for collections, and their singular forms. Only the last word of a name
counts.
-/
namespace ApiSchema.Name

open Text

def irregularPlurals : Entries String := [
  ("children", "child"), ("people", "person"), ("men", "man"), ("women", "woman"),
  ("data", "datum"), ("media", "medium"), ("criteria", "criterion")]

def uncountable : List String :=
  ["status", "address", "news", "series", "species", "info", "metadata"]

def endsInAny (word : String) (endings : List String) : Bool := endings.any (endsWith word)

def isPlural (name : String) : Bool :=
  let word := (cutLast '_' (toSnake name)).2
  if irregularPlurals.has word then true
  else if uncountable.contains word || word.length < 3 then false
  else endsWith word "s" && !endsInAny word ["ss", "us", "is"]

def dropEnd (n : Nat) (word : String) : String := take (word.length - n) word

def singularWord (word : String) : String :=
  match irregularPlurals.get? word with
  | some singular => singular
  | none =>
    if endsWith word "ies" && 3 < word.length then dropEnd 3 word ++ "y"
    else if endsInAny word ["ches", "shes", "xes", "sses"] then dropEnd 2 word
    else if endsWith word "s" && !endsWith word "ss" then dropEnd 1 word
    else word

def singular (name : String) : String :=
  match cutLast '_' (toSnake name) with
  | (some head, word) => if head.isEmpty then singularWord word else head ++ "_" ++ singularWord word
  | (none, word) => singularWord word

end ApiSchema.Name
