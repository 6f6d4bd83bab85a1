/-!
Cutting a text at a character or looking for one text inside another.
-/
namespace ApiSchema.Text

/-- The pieces between the separators; there is always at least one piece. -/
def splitList (sep : Char) : List Char → List (List Char)
  | [] => [[]]
  | c :: rest =>
    match splitList sep rest with
    | [] => [[c]]
    | piece :: pieces => if c == sep then [] :: piece :: pieces else (c :: piece) :: pieces

def split (sep : Char) (s : String) : List String :=
  (splitList sep s.toList).map String.ofList

/-- The text before the first separator, and the text after it if there is one. -/
def cutList (sep : Char) : List Char → List Char × Option (List Char)
  | [] => ([], none)
  | c :: rest =>
    if c == sep then ([], some rest)
    else
      let (head, tail) := cutList sep rest
      (c :: head, tail)

def cut (sep : Char) (s : String) : String × Option String :=
  let (head, tail) := cutList sep s.toList
  (String.ofList head, tail.map String.ofList)

theorem toList_cut_fst (sep : Char) (s : String) : (cut sep s).1.toList = s.toList.takeWhile (· != sep) := by
  have h : ∀ cs, (cutList sep cs).1 = cs.takeWhile (· != sep) := by
    intro cs
    induction cs with
    | nil => rfl
    | cons c cs ih => by_cases hc : c = sep <;> simp [cutList, hc, ih]
  simp [cut, h]

/-- The text before the last separator, if there is one, and the text after it. -/
def cutLast (sep : Char) (s : String) : Option String × String :=
  let (tail, head) := cutList sep s.toList.reverse
  (head.map fun cs => String.ofList cs.reverse, String.ofList tail.reverse)

def lastSegment (name : String) : String := (cutLast '.' name).2

def firstSegment (name : String) : String := (cut '.' name).1

def occursIn (needle : List Char) : List Char → Bool
  | [] => needle.isEmpty
  | c :: rest => needle.isPrefixOf (c :: rest) || occursIn needle rest

def contains (s needle : String) : Bool := occursIn needle.toList s.toList

def startsWith (s start : String) : Bool := start.toList.isPrefixOf s.toList

def endsWith (s ending : String) : Bool := ending.toList.isSuffixOf s.toList

def take (n : Nat) (s : String) : String := String.ofList (s.toList.take n)

def drop (n : Nat) (s : String) : String := String.ofList (s.toList.drop n)

def join (sep : String) (pieces : List String) : String :=
  String.intercalate sep pieces

end ApiSchema.Text
