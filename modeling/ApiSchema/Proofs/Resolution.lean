import ApiSchema.Proofs.Registration
import Mathlib.Data.List.DropRight

/-!
# The own classes of a module

A short name in a module stands for the class of the module that has it, unless the module imports the name, and
whatever other modules it imports every name of. One kind of names comes before the own classes: a class that is called
like a built-in name is not found by it, unless there is a module `builtins` that has the class or passes it on
(`result_resolveClass_own`).
-/
namespace ApiSchema

open Source Text

/-! ## Plain names -/

theorem Text.stripOf_eq_self {p : Char → Bool} {s : String} (h : ∀ c ∈ s.toList, p c = false) : stripOf p s = s := by
  have hleft : s.toList.dropWhile p = s.toList :=
    List.dropWhile_eq_self_iff.2 fun hl => by simp [h _ (List.getElem_mem hl)]
  have hright : dropRightWhile p s.toList = s.toList :=
    List.rdropWhile_eq_self_iff.2 fun hne => by simp [h _ (List.getLast_mem hne)]
  rw [stripOf, hleft, hright, String.ofList_toList]

namespace Source

variable {short : String}

theorem bareName_of_isName (h : Lexer.isName short = true) : bareName short = short := by
  have hblank : strip short = short := stripOf_eq_self fun c hc => isBlank_of_isName h hc
  rw [bareName, hblank]
  refine stripOf_eq_self fun c hc => Bool.eq_false_iff.2 fun hquote => not_mem_nameless h hc ?_
  rcases Bool.or_eq_true_iff.1 hquote with hquote | hquote
  · rw [eq_of_beq hquote]
    decide
  · rw [eq_of_beq hquote]
    decide

theorem cut_of_isName (h : Lexer.isName short = true) : cut '.' short = (short, none) := by
  rw [cut, cutList_of_not_mem (dot_not_mem_of_isName h)]
  exact congrArg (·, none) (String.ofList_toList)

/-- A name that is not imported is a built-in name, or is looked for. -/
theorem resolution_of_isName {imports : Imports} (h : Lexer.isName short = true)
    (hi : imports.names.get? short = none) :
    imports.resolution short =
      if short ∈ builtinNames then .known ("builtins." ++ short) else .free short := by
  unfold Imports.resolution
  rw [bareName_of_isName h]
  dsimp only
  rw [cut_of_isName h, hi, isEmpty_of_isName h]
  by_cases hb : short ∈ builtinNames
  · rw [if_pos hb]
    simp [hb]
  · rw [if_neg hb]
    simp [hb]

end Source

/-! ## Classes in their module -/

section

variable {r : Library} {m : Source.Module} {c : Source.Class} {home short : String}

theorem result_findClass_own (hr : r.Sound) (hm : result (loadModule home) r = .ok m) (hhome : home.isEmpty = false)
    (hc : m.classes.get? short = some c) : result (findClass (qualify home short)) r = .ok (some ⟨m, c⟩) :=
  have hname := ((hr.named home m hm).classes short c hc).1
  result_findClass.2 ⟨0, by decide, .defined (hr.placed hm hhome hname) hc⟩

/-- A name that no import and no built-in name takes stands for the own class, without a look at any other module. -/
theorem result_resolveName_own (hr : r.Sound) (hm : result (loadModule home) r = .ok m) (hhome : home.isEmpty = false)
    (hc : m.classes.get? short = some c) (hi : m.imports.names.get? short = none) (hb : short ∉ builtinNames) :
    result (resolveName m short) r = .ok (qualify home short) := by
  have hnamed := hr.named home m hm
  have hname := (hnamed.classes short c hc).1
  have hown : result (findClass (qualify m.name short)) r = .ok (some ⟨m, c⟩) := by
    rw [hnamed.name_eq]
    exact result_findClass_own hr hm hhome hc
  rw [← hnamed.name_eq]
  unfold qualify at hown
  unfold resolveName Imports.resolve
  rw [resolution_of_isName hname hi, if_neg hb]
  dsimp only
  split
  · rfl
  · rw [bind_assoc, result_bind, hown]
    rfl

variable (r m short c) in
/-- A short name of a module stands for a class of its own. If it is also a built-in name, it stands for the class that
it leads to in a module `builtins`, if there is one. -/
def IsOwn : Prop :=
  (short ∉ builtinNames → result (resolveClass m short) r = .ok (some ⟨m, c⟩)) ∧
    (short ∈ builtinNames → ∀ l, result (resolveClass m short) r = .ok (some l) ↔
      ∃ k < maxHops, Leads r k ("builtins." ++ short) l)

theorem isOwn_of_sound (hr : r.Sound) (hm : result (loadModule home) r = .ok m) (hhome : home ≠ "")
    (hc : m.classes.get? short = some c) (hi : m.imports.names.get? short = none) : IsOwn r m c short := by
  have hempty : home.isEmpty = false := Bool.eq_false_iff.2 fun h => hhome (String.isEmpty_iff.1 h)
  have hname := ((hr.named home m hm).classes short c hc).1
  refine ⟨fun hb => ?_, fun hb l => ?_⟩
  · have hown := result_resolveName_own hr hm hempty hc hi hb
    rw [resolveClass, Reads.result_bind (.resolveName m short) (.findClass _) hown]
    exact result_findClass_own hr hm hempty hc
  · have hbuiltin : resolveName m short = pure ("builtins." ++ short) := by
      unfold resolveName Imports.resolve
      rw [resolution_of_isName hname hi, if_pos hb]
    rw [resolveClass, hbuiltin, pure_bind]
    exact result_findClass

/-- A short name of a module that no import takes stands for the own class that has it, whatever modules are imported
whole. If it is also a built-in name, it stands for the class that it leads to in a module `builtins`, if there is
one. -/
theorem result_resolveClass_own (hr : r.Sound) (hm : result (loadModule home) r = .ok m) (hhome : home ≠ "")
    (hc : m.classes.get? short = some c) (hi : m.imports.names.get? short = none) :
    (short ∉ builtinNames → result (resolveClass m short) r = .ok (some ⟨m, c⟩)) ∧
      (short ∈ builtinNames → ∀ l, result (resolveClass m short) r = .ok (some l) ↔
        ∃ k < maxHops, Leads r k ("builtins." ++ short) l) :=
  isOwn_of_sound hr hm hhome hc hi

theorem isOwn_openLibrary {s : Settings} {root : String} {files texts : Entries String}
    (hr : Becomes (Infer.openLibrary s root files texts) r) (hm : result (loadModule home) r = .ok m)
    (hhome : home ≠ "")
    (hc : m.classes.get? short = some c) (hi : m.imports.names.get? short = none) : IsOwn r m c short :=
  isOwn_of_sound hr.sound hm hhome hc hi

end

/-! ## Libraries of several modules -/

/-- A class of a module, with its bases. -/
def classIn (home name : String) (bases : List String) : Source.Class where
  name := name
  qualifiedName := qualify home name
  bases := bases
  lineStart := 1
  lineEnd := 1

/-- A module with what it imports, and with the names and bases of its classes. -/
def moduleIn (home : String) (imports : Imports) (classes : Entries (List String)) : Source.Module where
  name := home
  imports := imports
  classes := classes.map fun e => (e.1, classIn home e.1 e.2)

/-- The library of some modules. -/
def libraryOfModules (ms : List Source.Module) : Library := .ofTexts (ms.map fun m => (m.name, .ok m))

/-- A module that imports every name of another, in which there is also an `A`. -/
def starred : Source.Module := moduleIn "m" { wildcards := ["n"] } [("A", []), ("Warning", [])]

def starredLibrary : Library := libraryOfModules [starred, moduleIn "n" {} [("A", []), ("Warning", [])]]

/-- The module has its own `A`. -/
theorem result_resolveClass_own_starred :
    result (resolveClass starred "A") starredLibrary = .ok (some ⟨starred, classIn "m" "A" []⟩) := by
  have hload : result (loadModule "m") starredLibrary = .ok starred := rfl
  exact (result_resolveClass_own (sound_ofTexts (by decide +kernel)) hload (by decide) rfl rfl).1 (by decide)

/-- The module has a `Warning`, and the name does not stand for it. -/
theorem not_resolveClass_own : starredLibrary.Sound ∧ result (loadModule "m") starredLibrary = .ok starred ∧
    starred.classes.get? "Warning" = some (classIn "m" "Warning" []) ∧ starred.imports.names.get? "Warning" = none ∧
    (result (resolveClass starred "Warning") starredLibrary).toOption.map Option.isSome = some false :=
  ⟨sound_ofTexts (by decide +kernel), rfl, rfl, rfl, by decide +kernel⟩

end ApiSchema
