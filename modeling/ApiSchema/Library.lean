import ApiSchema.Cache
import ApiSchema.Problem
import ApiSchema.Source.Path
import ApiSchema.Source.Resolve

/-!
A library of source modules, which are given as texts or lie in a folder. A module of a text comes
before one of a file, files are read when their module is first needed, and what has been read stays in
the cache until a new text takes its place.
-/
namespace ApiSchema

open Source Text

/-- A file of the folder: its size in bytes and the outcome of reading it. -/
structure SourceFile where
  size : Nat
  outcome : Except ReadError Source.Module

structure ReadCounts where
  total : Nat := 0
  complete : Nat := 0
  incomplete : Nat := 0
  failed : Nat := 0
deriving DecidableEq, Repr

def ReadCounts.failureRate (c : ReadCounts) : Double :=
  if c.total == 0 then .zero false else .ofRatio false c.failed c.total

def ReadCounts.countFailure (c : ReadCounts) : ReadCounts :=
  { c with total := c.total + 1, failed := c.failed + 1 }

def ReadCounts.countModule (c : ReadCounts) (m : Source.Module) : ReadCounts :=
  if m.incomplete then { c with total := c.total + 1, incomplete := c.incomplete + 1 }
  else { c with total := c.total + 1, complete := c.complete + 1 }

structure Library where
  root : String := ""
  /-- The files that the folder holds now, by their paths in it. -/
  folder : Entries SourceFile := []
  /-- The paths of the modules that the folder held at first. -/
  index : Entries String := []
  /-- The outcomes of reading the texts that were given, by module. -/
  texts : Entries (Except ReadError Source.Module) := []
  /-- The modules for which a package was given at some time. -/
  packages : List String := []
  cache : Cache := {}
  counts : ReadCounts := {}
  maxFileSize : Int := 1000000
  allowPartial : Bool := false

namespace Library

/-! ## Files -/

def relativePath (path : String) : String := join "/" (pathParts path)

def writeFile (l : Library) (path text : String) : Library :=
  let bytes := toBytes text
  let place := relativePath path
  let outcome := readModule bytes (moduleNameOf place) (isPackagePath place) l.allowPartial
  { l with folder := l.folder.set place ⟨bytes.length, outcome⟩ }

def deleteFile (l : Library) (path : String) : Library :=
  { l with folder := l.folder.erase (relativePath path) }

def pathsTo (parts : List String) : List (List String) :=
  (List.range parts.length).map fun i => parts.take (i + 1)

/-- Files and folders of the caches and of hidden folders hold no modules. -/
def isHidden (parts : List String) : Bool :=
  parts.any fun p => p.startsWith "." || p == "__pycache__"

def pathBefore : List String → List String → Bool
  | [], _ => true
  | _ :: _, [] => false
  | a :: as, b :: bs => a < b || (a == b && pathBefore as bs)

def modulePaths (l : Library) : List (List String) :=
  let all := (l.folder.keys.flatMap fun p => pathsTo (pathParts p)).eraseDups
  (all.filter fun parts => !isHidden parts && (parts.getLast?).any (endsWith · ".py")).mergeSort pathBefore

def indexFolder (l : Library) : Library :=
  l.modulePaths.foldl (fun l parts =>
    let path := join "/" parts
    let name := moduleNameOf path
    if name.isEmpty then l
    else { l with
      index := l.index.set name path
      packages := if isPackagePath path then l.packages ++ [name] else l.packages }) l

/-! ## Texts -/

/-- The library with a text in place of what its module was before. -/
def addText (l : Library) (path text : String) : Library :=
  let name := moduleNameOf path
  let packages := if isPackagePath path then l.packages ++ [name] else l.packages
  { l with
    packages
    texts := l.texts.set name (readModule (toBytes text) name (packages.contains name) l.allowPartial)
    cache := l.cache.invalidate name }

def hasModule (l : Library) (name : String) : Bool := l.texts.has name || l.index.has name

def moduleNames (l : Library) : List String :=
  (l.texts.keys ++ l.index.keys).eraseDups.mergeSort fun a b => !(b < a)

/-- The longest start of a dotted name that is a module, and the names after it. -/
def splitName? (l : Library) (name : String) : Option (String × List String) :=
  let parts := split '.' name
  ((List.range parts.length).reverse.filter (0 < ·)).findSome? fun i =>
    let start := join "." (parts.take i)
    if l.hasModule start then some (start, parts.drop i) else none

end Library

/-! ## Inference -/

/-- Computations over a library. What they have read stays read when they meet a problem. -/
abbrev Inference := ExceptT Problem (StateM Library)

def Problem.isAbsorbed : Problem → Bool
  | .unreadable _ | .unresolved _ => true
  | _ => false

/-- What a computation gives, or nothing when it meets a problem that means that nothing is known. -/
def attempt {m : Type → Type} [Monad m] [MonadExceptOf Problem m] (x : m (Option α)) : m (Option α) :=
  tryCatch x fun p => if p.isAbsorbed then return none else throw p

def recordOutcome (place : String) : Except ReadError Source.Module → Inference Source.Module
  | .ok m => do
    modify fun l => { l with counts := l.counts.countModule m }
    return m
  | .error (.fault f) => throw (.fault f)
  | .error e => do
    modify fun l => { l with counts := l.counts.countFailure }
    throw (.unreadable ((e.message? place).getD ""))

def failToRead (message : String) : Inference Source.Module := do
  modify fun l => { l with counts := l.counts.countFailure }
  throw (.unreadable message)

def missingReason (l : Library) (path : String) : String :=
  if l.folder.keys.any (startsWith · (path ++ "/")) then "[Errno 21] Is a directory: "
  else "[Errno 2] No such file or directory: "

def readFile (path : String) : Inference Source.Module := do
  let l ← get
  let place := l.root ++ "/" ++ path
  match l.folder.get? path with
  | none => failToRead ("Failed to read file " ++ place ++ ": " ++ missingReason l path ++ quoted place)
  | some file =>
    if l.maxFileSize < file.size then
      failToRead ("File size (" ++ toString file.size ++ " bytes) exceeds limit (" ++
        toString l.maxFileSize ++ " bytes)")
    else recordOutcome place file.outcome

def readSource (l : Library) (name : String) : Inference Source.Module :=
  match l.texts.get? name, l.index.get? name with
  | some outcome, _ => recordOutcome (if name.isEmpty then unnamedPlace else name) outcome
  | none, some path => readFile path
  | none, none => throw (.unresolved ("No module named " ++ name))

def loadModule (name : String) : Inference Source.Module := do
  let l ← get
  let (known, cache) := l.cache.getModule name
  set { l with cache }
  match known with
  | some m => return m
  | none => keep (← readSource l name)
where
  keep (m : Source.Module) : Inference Source.Module := do
    modify fun l => { l with cache := l.cache.putModule name m }
    return m

end ApiSchema
