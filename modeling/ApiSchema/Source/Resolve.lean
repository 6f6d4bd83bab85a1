import ApiSchema.Source.Import
import ApiSchema.Text.Blank

/-!
What a short name stands for. An imported name stands for what it was imported as, a dotted name for
itself, a built-in name for the built-in; any other name is taken to be defined where it is used,
unless only a module whose names are all imported defines it.
-/
namespace ApiSchema.Source

open Text

def builtinNames : List String := [
  "ArithmeticError", "AssertionError", "AttributeError", "BaseException", "BaseExceptionGroup",
  "BlockingIOError", "BrokenPipeError", "BufferError", "BytesWarning", "ChildProcessError",
  "ConnectionAbortedError", "ConnectionError", "ConnectionRefusedError", "ConnectionResetError",
  "DeprecationWarning", "EOFError", "Ellipsis", "EncodingWarning", "EnvironmentError", "Exception",
  "ExceptionGroup", "False", "FileExistsError", "FileNotFoundError", "FloatingPointError",
  "FutureWarning", "GeneratorExit", "IOError", "ImportError", "ImportWarning", "IndentationError",
  "IndexError", "InterruptedError", "IsADirectoryError", "KeyError", "KeyboardInterrupt",
  "LookupError", "MemoryError", "ModuleNotFoundError", "NameError", "None", "NotADirectoryError",
  "NotImplemented", "NotImplementedError", "OSError", "OverflowError", "PendingDeprecationWarning",
  "PermissionError", "ProcessLookupError", "RecursionError", "ReferenceError", "ResourceWarning",
  "RuntimeError", "RuntimeWarning", "StopAsyncIteration", "StopIteration", "SyntaxError",
  "SyntaxWarning", "SystemError", "SystemExit", "TabError", "TimeoutError", "True", "TypeError",
  "UnboundLocalError", "UnicodeDecodeError", "UnicodeEncodeError", "UnicodeError",
  "UnicodeTranslateError", "UnicodeWarning", "UserWarning", "ValueError", "Warning",
  "ZeroDivisionError", "abs", "aiter", "all", "anext", "any", "ascii", "bin", "bool", "breakpoint",
  "bytearray", "bytes", "callable", "chr", "classmethod", "compile", "complex", "copyright",
  "credits", "delattr", "dict", "dir", "divmod", "enumerate", "eval", "exec", "exit", "filter",
  "float", "format", "frozenset", "getattr", "globals", "hasattr", "hash", "help", "hex", "id",
  "input", "int", "isinstance", "issubclass", "iter", "len", "license", "list", "locals", "map",
  "max", "memoryview", "min", "next", "object", "oct", "open", "ord", "pow", "print", "property",
  "quit", "range", "repr", "reversed", "round", "set", "setattr", "slice", "sorted",
  "staticmethod", "str", "sum", "super", "tuple", "type", "vars", "zip"]

/-- A name without the blanks and quotes around it. -/
def bareName (name : String) : String := stripOf (fun c => c == '\'' || c == '"') (strip name)

/-- A name of a module by what the rules of names alone tell. -/
inductive Resolution where
  | known (name : String)
  /-- The name belongs to the module itself, or to a module of which every name is imported. -/
  | free (name : String)

/-- What a name stands for, as far as the imports tell. -/
def Imports.resolution (imports : Imports) (written : String) : Resolution :=
  let name := bareName written
  let (head, tail) := cut '.' name
  let rest := tail.getD ""
  let target := (imports.names.get? head).getD ""
  if name.isEmpty then .known name
  else if !target.isEmpty then .known (if rest.isEmpty then target else target ++ "." ++ rest)
  else if !rest.isEmpty then .known name
  else if builtinNames.contains name then .known ("builtins." ++ name)
  else .free name

section

variable {m : Type → Type} [Monad m]

def firstExisting (isClass : String → m Bool) : List String → m (Option String)
  | [] => return none
  | name :: rest => do
    if ← isClass name then return some name
    firstExisting isClass rest

/-- The dotted name of a name used in a module. A test of what exists is asked only when the module
imports every name of some others. -/
def Imports.resolve (imports : Imports) (scope : String) (isClass : Option (String → m Bool))
    (written : String) : m String := do
  match imports.resolution written with
  | .known name => return name
  | .free name =>
    let own := if scope.isEmpty then name else scope ++ "." ++ name
    match isClass with
    | none => return own
    | some isClass =>
      if imports.wildcards.isEmpty then return own
      if ← isClass own then return own
      return (← firstExisting isClass (imports.wildcards.map (· ++ "." ++ name))).getD own

end

end ApiSchema.Source
