import ApiSchema.Entries
import ApiSchema.Text.Cut

/-!
Names that a module's import statements bind, and the module that a relative import means.
-/
namespace ApiSchema.Source

open Text

/-- Local names with the dotted names they stand for, and the modules of which every name is
imported. -/
structure Imports where
  names : Entries String := []
  wildcards : List String := []

namespace Imports

def add (i : Imports) (name target : String) : Imports :=
  { i with names := i.names.set name target }

/-- Every module counts once, and no name means no module. -/
def addWildcard (i : Imports) (module : String) : Imports :=
  if module.isEmpty || i.wildcards.contains module then i
  else { i with wildcards := i.wildcards ++ [module] }

end Imports

/-- The module that an import with `level` leading dots means. Too many dots count as none. -/
def relativeModule (current module : String) (level : Int) : String :=
  if level ≤ 0 then module
  else
    let base := if current.isEmpty then [] else split '.' current
    if base.length < level.toNat then module
    else
      let kept := base.take (base.length - level.toNat)
      join "." ((kept ++ split '.' module).filter (!·.isEmpty))

end ApiSchema.Source
