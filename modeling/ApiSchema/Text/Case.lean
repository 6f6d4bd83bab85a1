import ApiSchema.Text.CaseTable

/-!
Lower case and capitalised forms of a text, for every script. A capital sigma takes its final form
at the end of a word, so a text is mapped as a whole and not character by character.
-/
namespace ApiSchema.Text

def mapByRuns (runs : List CaseRun) (c : Char) : Char :=
  match runs.find? (·.covers c.toNat) with
  | some r => Char.ofNat ((c.toNat : Int) + r.shift).toNat
  | none => c

def lowerOf (c : Char) : List Char :=
  if c.toNat < 0x80 then [c.toLower]
  else if c.toNat == 0x130 then ['i', Char.ofNat 0x307]
  else [mapByRuns lowerRuns c]

/-- The first character that has a character as its lower case form. -/
def raised (c : Char) : Char :=
  match lowerRuns.find? fun r => r.covers ((c.toNat : Int) - r.shift).toNat with
  | some r => Char.ofNat ((c.toNat : Int) - r.shift).toNat
  | none => c

def titleOf (c : Char) : List Char :=
  if c.toNat < 0x80 then [c.toUpper]
  else match titleSequences.find? (·.1 == c.toNat) with
    | some (_, cs) => cs.map Char.ofNat
    | none => [if titleRuns.any (·.covers c.toNat) then mapByRuns titleRuns c else raised c]

def isUpper (c : Char) : Bool :=
  if c.toNat < 0x80 then c.isUpper
  else upperRanges.has c.toNat || (lowerRuns.any (·.covers c.toNat) && !titleRanges.has c.toNat)

def isCased (c : Char) : Bool := casedRanges.has c.toNat

def isCaseIgnorable (c : Char) : Bool := caseIgnorableRanges.has c.toNat

/-- Whether the nearest character that is not passed over has a case. -/
def nearestCased (cs : List Char) : Bool :=
  match cs.dropWhile isCaseIgnorable with
  | c :: _ => isCased c
  | [] => false

def formAt (before : List Char) (c : Char) (rest : List Char) : List Char :=
  if c.toNat == 0x3A3 then [Char.ofNat (if nearestCased before && !nearestCased rest then 0x3C2 else 0x3C3)]
    else lowerOf c

/-- Lower case of a text; `before` holds the characters already passed, the last one first. -/
def lowerFrom (before : List Char) : List Char → List Char
  | [] => []
  | c :: rest => formAt before c rest ++ lowerFrom (c :: before) rest

def lower (s : String) : String :=
  String.ofList (lowerFrom [] s.toList)

def capitalize (s : String) : String :=
  match s.toList with
  | [] => ""
  | c :: rest => String.ofList (titleOf c ++ lowerFrom [c] rest)

def startsUpper (s : String) : Bool :=
  s.toList.head?.any isUpper

end ApiSchema.Text
