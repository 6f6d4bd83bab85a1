import ApiSchema.Text.Padded
import ApiSchema.Value

/-!
What can be told of a text in a sentence: the text itself, its characters by position, and some facts
by name, such as the kind of value it is.
-/
namespace ApiSchema.Text

def methodNames : List String := [
  "capitalize", "casefold", "center", "count", "encode", "endswith", "expandtabs", "find",
  "format", "format_map", "index", "isalnum", "isalpha", "isascii", "isdecimal", "isdigit",
  "isidentifier", "islower", "isnumeric", "isprintable", "isspace", "istitle", "isupper", "join",
  "ljust", "lower", "lstrip", "maketrans", "partition", "removeprefix", "removesuffix", "replace",
  "rfind", "rindex", "rjust", "rpartition", "rsplit", "rstrip", "split", "splitlines",
  "startswith", "strip", "swapcase", "title", "translate", "upper", "zfill"]

/-- The names of what every text can do in a language of objects. -/
def specialNames : List String := [
  "__add__", "__contains__", "__delattr__", "__dir__", "__eq__", "__format__", "__ge__",
  "__getattribute__", "__getitem__", "__getnewargs__", "__getstate__", "__gt__", "__hash__",
  "__init__", "__init_subclass__", "__iter__", "__le__", "__len__", "__lt__", "__mod__",
  "__mul__", "__ne__", "__new__", "__reduce__", "__reduce_ex__", "__repr__", "__rmod__",
  "__rmul__", "__setattr__", "__sizeof__", "__str__", "__subclasshook__"]

inductive Kind where
  | text
  /-- The kind of kinds. -/
  | kind
  /-- The kind of everything. -/
  | any
deriving DecidableEq, Repr

namespace Kind

def name : Kind → String
  | .text => "str"
  | .kind => "type"
  | .any => "object"

def shown (k : Kind) : String := "<class '" ++ k.name ++ "'>"

def description : Kind → String
  | .text =>
    "str(object='') -> str\n" ++
    "str(bytes_or_buffer[, encoding[, errors]]) -> str\n" ++
    "\n" ++
    "Create a new string object from the given object. If encoding or\n" ++
    "errors is specified, then the object must expose a data buffer\n" ++
    "that will be decoded using the given encoding and error handler.\n" ++
    "Otherwise, returns the result of object.__str__() (if defined)\n" ++
    "or repr(object).\n" ++
    "encoding defaults to sys.getdefaultencoding().\n" ++
    "errors defaults to 'strict'."
  | .kind =>
    "type(object) -> the object's type\n" ++
    "type(name, bases, dict, **kwds) -> a new type"
  | .any =>
    "The base class of the class hierarchy.\n" ++
    "\n" ++
    "When called, it accepts no arguments and returns a new featureless\n" ++
    "instance that has no instance attributes and cannot be given any.\n"

def ancestors : Kind → List Kind
  | .any => [.any]
  | k => [k, .any]

end Kind

inductive Told where
  | text (cs : List Char)
  | kind (k : Kind)
  | kinds (ks : List Kind)
  | nothing
  /-- What can be done with a text, or with every text. -/
  | method (name : String) (general : Bool)

namespace Told

def kindsText : List Kind → String
  | [k] => "(" ++ k.shown ++ ",)"
  | ks => "(" ++ String.intercalate ", " (ks.map Kind.shown) ++ ")"

def shown : Told → List Char
  | .text cs => cs
  | .kind k => k.shown.toList
  | .kinds ks => (kindsText ks).toList
  | .nothing => "None".toList
  | .method name true => ("<method '" ++ name ++ "' of 'str' objects>").toList
  | .method name false => ("<built-in method " ++ name ++ " of str object>").toList

def literal : Told → List Char
  | .text cs => quoteList cs
  | t => t.shown

def part (name : String) : Told → Except Fault Told
  | .text _ =>
    if name == "__class__" then .ok (.kind .text)
    else if name == "__doc__" then .ok (.text Kind.text.description.toList)
    else if methodNames.contains name || specialNames.contains name then .ok (.method name false)
    else .error .noPart
  | .kind k =>
    match name with
    | "__name__" | "__qualname__" => .ok (.text k.name.toList)
    | "__module__" => .ok (.text "builtins".toList)
    | "__doc__" => .ok (.text k.description.toList)
    | "__class__" => .ok (.kind .kind)
    | "__base__" => .ok (if k == .any then .nothing else .kind .any)
    | "__bases__" => .ok (.kinds (k.ancestors.drop 1))
    | "__mro__" => .ok (.kinds k.ancestors)
    | _ => if k == .text && methodNames.contains name then .ok (.method name true) else .error .noPart
  | _ => if name == "__class__" then .ok (.kind .kind) else .error .noPart

def element (i : Nat) : Told → Except Fault Told
  | .text cs => match cs[i]? with
    | some c => .ok (.text [c])
    | none => .error .noPosition
  | .kinds ks => match ks[i]? with
    | some k => .ok (.kind k)
    | none => .error .noPosition
  | _ => .error .mismatch

/-- How it is written as a specification asks. Only texts have specifications. -/
def render (spec : List Char) (t : Told) : Except Fault (List Char) :=
  match t, spec with
  | t, [] => .ok t.shown
  | .text cs, spec => match Padding.read? spec with
    | some p => .ok (p.apply cs)
    | none => .error .invalid
  | _, _ => .error .mismatch

end Told
end ApiSchema.Text
