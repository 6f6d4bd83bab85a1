import ApiSchema.Proofs.Sources

/-!
# Histories of a library

A library is given texts, its folder changes, and it is read, in any order. Whatever happens, it holds everything in its
place (`Becomes.stocked`): what the cache holds of a module is what its text or its file gave.

For a library of nothing but texts, a module can be told from the texts alone (`result_loadModule_given`). The last text
of a module counts, however often the module was loaded before. Whether it is read as a package is another matter: a
module that was a package once stays one, even if its last text is that of a plain file (`former_package`).
-/
namespace ApiSchema

open Source Text

variable {l : Library} {text name path : String} {m : Module} {o : Except ReadError Source.Module}

/-- Loading leaves the sources as they are, and what it adds to the cache is what the source of the module gives. -/
theorem exists_after_loadModule (name : String) (l : Library) : ∃ c k, after (loadModule name) l = l.knowing c k ∧
    ∀ other m, c.modules.get? other = some m → l.cache.modules.get? other = some m ∨
      other = name ∧ result (readSource l name) l = .ok m := by
  obtain ⟨-, -, hmodules⟩ := getModule_fields l.cache name
  cases hknown : l.cache.modules.get? name with
  | some m =>
    refine ⟨_, _, (loadModule_known hknown).2, fun other m' hm' => .inl ?_⟩
    rwa [hmodules] at hm'
  | none =>
    obtain ⟨-, k, hafter⟩ := loadModule_new hknown
    refine ⟨_, k, hafter, fun other m' hm' => ?_⟩
    cases hread : result (readSource l name) l with
    | error p =>
      rw [hread] at hm'
      rw [← hmodules]
      exact .inl hm'
    | ok m =>
      rw [hread] at hm'
      have hset : Entries.get? (Entries.set (l.cache.getModule name).2.modules name m) other = some m' := hm'
      rw [hmodules, Entries.get?_set] at hset
      split at hset
      · rename_i hother
        cases hset
        exact .inr ⟨hother.symm, rfl⟩
      · exact .inl hset

/-! ## Every history -/

/-- The libraries that a library comes to: it is given texts, its files come and go, it is read, and its cache drops
modules or changes its schemas. -/
inductive Becomes (r : Library) : Library → Prop
  | start : Becomes r r
  | addText {l : Library} (h : Becomes r l) (path text : String) : Becomes r (l.addText path text)
  | writeFile {l : Library} (h : Becomes r l) (path text : String) : Becomes r (l.writeFile path text)
  | deleteFile {l : Library} (h : Becomes r l) (path : String) : Becomes r (l.deleteFile path)
  | read {l : Library} {α : Type} {x : Inference α} (h : Becomes r l) (hx : Reads (fun _ => True) x) :
      Becomes r (after x l)
  | cached {l : Library} (h : Becomes r l) {c : Cache}
    (hc : ∀ name m, c.modules.get? name = some m → l.cache.modules.get? name = some m) : Becomes r { l with cache := c }

namespace Library.Stocked

variable {l : Library}

theorem loadModule (hl : l.Stocked) (name : String) : (after (ApiSchema.loadModule name) l).Stocked := by
  obtain ⟨c, k, hafter, hc⟩ := exists_after_loadModule name l
  rw [hafter]
  refine ⟨hl.texts, hl.folder, hl.index, fun other m hm => ?_⟩
  rcases hc other m hm with hold | ⟨rfl, hread⟩
  · exact hl.cache other m hold
  · exact hl.readSource hread

theorem deleteFile (hl : l.Stocked) (path : String) : (l.deleteFile path).Stocked where
  texts := hl.texts
  folder place file hfile := by
    change Entries.get? (l.folder.erase (relativePath path)) place = some file at hfile
    rw [Entries.get?_erase] at hfile
    split at hfile
    · cases hfile
    · exact hl.folder place file hfile
  index := hl.index
  cache := hl.cache

end Library.Stocked

/-- Whatever happens to a library, it holds everything in its place. -/
theorem Becomes.stocked {r : Library} (h : Becomes r l) (hr : r.Stocked) : l.Stocked := by
  induction h with
  | start => exact hr
  | addText _ path text ih => exact ih.addText path text
  | writeFile _ path text ih => exact ih.writeFile path text
  | deleteFile _ path ih => exact ih.deleteFile path
  | read _ hx ih => exact hx.keeps (fun name l hl => hl.loadModule name) ih
  | cached _ hc ih => exact ⟨ih.texts, ih.folder, ih.index, fun name m hm => ih.cache name m (hc name m hm)⟩

/-- Whatever happens to an opened library, it is sound. -/
theorem Becomes.sound {s : Settings} {root : String} {files texts : Entries String}
    (h : Becomes (Infer.openLibrary s root files texts) l) : l.Sound :=
  (h.stocked (stocked_openLibrary s root files texts)).sound

/-! ## Libraries of texts -/

/-- The library with the outcome of reading a text for a module. -/
def Library.addOutcome (l : Library) (name : String) (packages : List String) (o : Except ReadError Source.Module) :
    Library :=
  { l with packages, texts := l.texts.set name o, cache := l.cache.invalidate name }

theorem addText_of_read (path name : String)
    (hname : moduleNameOf path = name ∧ isPackagePath path = false) (hl : l.packages = [] ∧ l.allowPartial = false)
    (h : readModule (Text.toBytes text) name false false = o) : l.addText path text = l.addOutcome name [] o := by
  unfold Library.addText Library.addOutcome
  simp [hname.1, hname.2, hl.1, hl.2, h]

/-- What happens to a library of texts: it is given a text, by its path, or a module is loaded. -/
inductive TextStep where
  | give (path text : String)
  | load (name : String)

namespace TextStep

def apply (l : Library) : TextStep → Library
  | .give path text => l.addText path text
  | .load name => after (loadModule name) l

/-- The path and the text that a step gives. -/
def given? : TextStep → Option (String × String)
  | .give path text => some (path, text)
  | .load _ => none

end TextStep

/-- The library after some steps. -/
def Library.run (l : Library) (steps : List TextStep) : Library := steps.foldl TextStep.apply l

/-- What was given for a module, from the first to the last. -/
def givenFor (name : String) (given : List (String × String)) : List (String × String) :=
  given.filter fun e => moduleNameOf e.1 == name

/-- Whether one of some texts is that of a package. -/
def anyPackage (given : List (String × String)) : Bool := given.any fun e => isPackagePath e.1

/-- The outcome of reading what was given for a module: the last text counts, and the paths of all of them. -/
def outcomeOf (allowPartial : Bool) (name : String) (given : List (String × String)) :
    Option (Except ReadError Source.Module) :=
  (givenFor name given).getLast?.map fun e =>
    readModule (toBytes e.2) name (anyPackage (givenFor name given)) allowPartial

/-- The module that reading a text comes to, or the problem with it. -/
def moduleOrProblem (name : String) : Except ReadError Source.Module → Except Problem Source.Module
  | .ok m => .ok m
  | .error (.fault f) => .error (.fault f)
  | .error e => .error (.unreadable ((e.message? (if name.isEmpty then unnamedPlace else name)).getD ""))

theorem givenFor_concat_self (given : List (String × String)) (text : String)
    (h : moduleNameOf path = name) :
    givenFor name (given ++ [(path, text)]) = givenFor name given ++ [(path, text)] := by
  simp [givenFor, h]

theorem givenFor_concat_ne (given : List (String × String)) (text : String)
    (h : moduleNameOf path ≠ name) : givenFor name (given ++ [(path, text)]) = givenFor name given := by
  simp [givenFor, h]

/-- A library holds what was given, and nothing else. -/
structure Library.Holds (allowPartial : Bool) (given : List (String × String)) (l : Library) : Prop where
  allows : l.allowPartial = allowPartial
  texts : ∀ name, l.texts.get? name = outcomeOf allowPartial name given
  packages : ∀ name, l.packages.contains name = anyPackage (givenFor name given)
  index : l.index = []
  cache : ∀ name m, l.cache.modules.get? name = some m → l.texts.get? name = some (.ok m)

namespace Library.Holds

variable {l : Library} {given : List (String × String)} {allowPartial : Bool}

theorem loadModule (h : l.Holds allowPartial given) (name : String) :
    (after (ApiSchema.loadModule name) l).Holds allowPartial given := by
  obtain ⟨c, k, hafter, hc⟩ := exists_after_loadModule name l
  rw [hafter]
  refine ⟨h.allows, h.texts, h.packages, h.index, fun other m hm => ?_⟩
  rcases hc other m hm with hold | ⟨rfl, hread⟩
  · exact h.cache other m hold
  · change l.texts.get? other = some (.ok m)
    unfold readSource at hread
    rw [h.index] at hread
    cases htext : l.texts.get? other with
    | none =>
      rw [htext] at hread
      cases hread
    | some o =>
      rw [htext] at hread
      rw [recordOutcome_ok hread]

/-- The packages after a text are those of all texts so far. -/
theorem packages_addText (h : l.Holds allowPartial given) (path text name : String) :
    (l.addText path text).packages.contains name = anyPackage (givenFor name (given ++ [(path, text)])) := by
  change (if isPackagePath path then l.packages ++ [moduleNameOf path] else l.packages).contains name = _
  have hold := h.packages name
  by_cases hname : moduleNameOf path = name
  · rw [givenFor_concat_self given text hname]
    cases hp : isPackagePath path <;> simp_all [anyPackage]
  · rw [givenFor_concat_ne given text hname, ← hold]
    cases isPackagePath path <;> simp [Ne.symm hname]

theorem texts_addText (h : l.Holds allowPartial given) (path text name : String) :
    (l.addText path text).texts.get? name = outcomeOf allowPartial name (given ++ [(path, text)]) := by
  have hpackages := h.packages_addText path text name
  change (l.texts.set (moduleNameOf path) (readModule (toBytes text) (moduleNameOf path)
    ((l.addText path text).packages.contains (moduleNameOf path)) l.allowPartial)).get? name = _
  rw [Entries.get?_set, h.allows]
  split
  · rename_i hname
    rw [hname, hpackages, outcomeOf, givenFor_concat_self given text hname]
    simp
  · rename_i hname
    rw [h.texts, outcomeOf, outcomeOf, givenFor_concat_ne given text hname]

/-- A new text drops what the cache has of its module, and only that. -/
theorem addText (h : l.Holds allowPartial given) (path text : String) :
    (l.addText path text).Holds allowPartial (given ++ [(path, text)]) where
  allows := h.allows
  texts := h.texts_addText path text
  packages := h.packages_addText path text
  index := h.index
  cache name m hm := by
    have hinvalid : (l.cache.invalidate (moduleNameOf path)).modules.get? name =
        if name = moduleNameOf path then none else l.cache.modules.get? name := by
      unfold Cache.invalidate
      split
      · exact Entries.get?_erase _ _ _
      · rename_i hloaded
        split
        · rename_i hname
          simpa [Entries.has, hname] using hloaded
        · rfl
    change (l.cache.invalidate (moduleNameOf path)).modules.get? name = some m at hm
    rw [hinvalid] at hm
    split at hm
    · cases hm
    · rename_i hname
      exact (Entries.get?_set_ne _ _ hname).trans (h.cache name m hm)

theorem run (h : l.Holds allowPartial given) (steps : List TextStep) :
    (l.run steps).Holds allowPartial (given ++ steps.filterMap TextStep.given?) := by
  induction steps generalizing l given with
  | nil => simpa [Library.run] using h
  | cons step steps ih =>
    cases step with
    | give path text =>
      have hrest := ih (h.addText path text)
      rwa [List.append_assoc] at hrest
    | load name => exact ih (h.loadModule name)

/-- What a module is can be told from the texts that were given. -/
theorem result_loadModule (h : l.Holds allowPartial given) (name : String) : result (ApiSchema.loadModule name) l =
    ((outcomeOf allowPartial name given).map (moduleOrProblem name)).getD
      (.error (.unresolved ("No module named " ++ name))) := by
  rw [ApiSchema.result_loadModule, ← h.texts name]
  cases hknown : l.cache.modules.get? name with
  | some m =>
    rw [h.cache name m hknown]
    rfl
  | none =>
    dsimp only
    unfold readSource
    rw [h.index]
    cases l.texts.get? name with
    | some o => rcases o with (_ | _ | f) | m <;> rfl
    | none => rfl

end Library.Holds

theorem holds_openLibrary_nil (s : Settings) (root : String) :
    (Infer.openLibrary s root [] []).Holds s.allowPartialParse [] := by
  unfold Infer.openLibrary
  dsimp only [List.foldl_nil]
  rw [indexFolder_of_empty rfl]
  refine ⟨rfl, fun _ => rfl, fun _ => rfl, rfl, fun name m hm => ?_⟩
  cases hm

/-- A library that is opened over texts alone holds these texts. -/
theorem holds_openLibrary (s : Settings) (root : String) (texts : Entries String) :
    (Infer.openLibrary s root [] texts).Holds s.allowPartialParse texts := by
  have hrun := (holds_openLibrary_nil s root).run (texts.map fun e => .give e.1 e.2)
  have hsame : (Infer.openLibrary s root [] []).run (texts.map fun e => .give e.1 e.2) =
      Infer.openLibrary s root [] texts :=
    List.foldl_map
  have hgiven : (texts.map fun e => TextStep.give e.1 e.2).filterMap TextStep.given? = texts := by
    rw [List.filterMap_map]
    exact List.filterMap_some
  rwa [hsame, hgiven] at hrun

/-! ## Packages and plain files -/

/-- Two results that agree on what is seen of them: both fail, or what is seen of their values is the same. -/
theorem map_eq_map_iff {ε α β : Type} {f : α → β} {x y : Except ε α} :
    x.map f = y.map f ↔ (∃ e, x = .error e ∧ y = .error e) ∨ ∃ a b, x = .ok a ∧ y = .ok b ∧ f a = f b := by
  cases x <;> cases y <;> simp [Except.map, eq_comm]

namespace Source

/-- A module without what depends on its being a package. -/
def Module.bare (m : Module) : Module := { m with imports := {}, isPackage := false }

theorem bare_withDefinition (m : Module) (t : Tree) :
    (m.withDefinition t).map Module.bare = m.bare.withDefinition t := by
  unfold Module.withDefinition
  cases undecorated t with
  | error f => rfl
  | ok found =>
    obtain ⟨definition | definition, decorators⟩ := found
    · rfl
    · change Except.map Module.bare (ite _ _ _) = ite _ _ _
      split
      · rfl
      · split
        · change Except.map Module.bare (classOf definition decorators m.name >>= _) =
              classOf definition decorators m.name >>= _
          cases classOf definition decorators m.name <;> rfl
        · split
          · rfl
          · rfl

/-- Imports aside, what a statement adds to a module does not depend on whether it is a package. -/
theorem bare_withItem {m' : Module} (h : m.bare = m'.bare) (t : Tree) :
    (m.withItem t).map Module.bare = (m'.withItem t).map Module.bare := by
  unfold Module.withItem
  split
  · exact congrArg Except.ok h
  · exact congrArg Except.ok h
  · rw [bare_withDefinition, bare_withDefinition, h]

theorem bare_foldlM_withItem {m m' : Module} (h : m.bare = m'.bare) (ts : List Tree) :
    (ts.foldlM Module.withItem m).map Module.bare = (ts.foldlM Module.withItem m').map Module.bare := by
  induction ts generalizing m m' with
  | nil => exact congrArg Except.ok h
  | cons t ts ih =>
    rw [List.foldlM_cons, List.foldlM_cons]
    obtain ⟨f, hm, hm'⟩ | ⟨n, n', hm, hm', hn⟩ := map_eq_map_iff.1 (bare_withItem h t)
    · rw [hm, hm']
    · rw [hm, hm']
      exact ih hn

section

variable {bytes : List Nat} {name : String} {isPackage allowPartial : Bool}

theorem isPackage_readModule (h : readModule bytes name isPackage allowPartial = .ok m) :
    m.isPackage = isPackage :=
  (plain_readModule bytes name isPackage allowPartial m h).isPackage_eq

/-- A text that cannot be read as that of a plain file cannot be read as that of a package, and the other way round. -/
theorem error_readModule {e : ReadError} (h : readModule bytes name isPackage allowPartial = .error e)
    (isPackage' : Bool) :
    readModule bytes name isPackage' allowPartial = .error e := by
  unfold readModule at h ⊢
  generalize parse (ofBytes bytes) = parsed at h ⊢
  split
  · rename_i hbinary
    rwa [if_pos hbinary] at h
  · rename_i hbinary
    rw [if_neg hbinary] at h
    dsimp only at h ⊢
    split
    · rename_i hbroken
      rwa [if_pos hbroken] at h
    · rename_i hbroken
      rw [if_neg hbroken] at h
      rw [withStatements_eq] at h ⊢
      have hbare := @bare_foldlM_withItem { name, isPackage, incomplete := !parsed.complete }
        { name, isPackage := isPackage', incomplete := !parsed.complete } rfl (guardedIn isEntered parsed.statements)
      obtain ⟨f, hfirst, hsecond⟩ | ⟨m, m', hfirst, -, -⟩ := map_eq_map_iff.1 hbare
      · rw [hsecond, ← h, hfirst]
      · rw [hfirst] at h
        cases h

end

end Source

/-! ## The last text -/

theorem moduleOrProblem_ok {m : Source.Module}
    (h : moduleOrProblem name o = .ok m) : o = .ok m := by
  rcases o with (_ | _ | f) | m' <;> cases h
  rfl

/-- Reading a text as that of a package and as that of a plain file comes to the same only if it cannot be read. -/
theorem moduleOrProblem_readModule_iff {bytes : List Nat} {allowPartial : Bool} (isPackage isPackage' : Bool) :
    moduleOrProblem name (readModule bytes name isPackage allowPartial) =
        moduleOrProblem name (readModule bytes name isPackage' allowPartial) ↔
      isPackage = isPackage' ∨ ∃ e, readModule bytes name isPackage' allowPartial = .error e := by
  constructor
  · intro h
    cases hread : readModule bytes name isPackage' allowPartial with
    | error e => exact .inr ⟨e, rfl⟩
    | ok m =>
      rw [hread] at h
      have hm := isPackage_readModule (moduleOrProblem_ok h)
      exact .inl (hm.symm.trans (isPackage_readModule hread))
  · rintro (rfl | ⟨e, he⟩)
    · rfl
    · rw [he, error_readModule he]

section

variable (s : Settings) (root : String) (texts : Entries String) (steps : List TextStep)

theorem result_loadModule_last {earlier : List (String × String)}
    (h : givenFor name (texts ++ steps.filterMap TextStep.given?) = earlier ++ [(path, text)]) :
    result (loadModule name) ((Infer.openLibrary s root [] texts).run steps) =
      moduleOrProblem name
        (readModule (toBytes text) name (isPackagePath path || anyPackage earlier) s.allowPartialParse) := by
  have hflag : anyPackage (earlier ++ [(path, text)]) = (isPackagePath path || anyPackage earlier) := by
    simp [anyPackage, Bool.or_comm]
  rw [((holds_openLibrary s root texts).run steps).result_loadModule, outcomeOf, h, hflag]
  simp

/-- After any steps, a module is what its last text gives, however often it was loaded before. The text is read as that
of a package if its own path or an earlier path of the module is one. So it is read as its own path says if and only if
it is not the text of a plain file after that of a package, or cannot be read at all. -/
theorem result_loadModule_given (name : String) :
    (∀ earlier path text, givenFor name (texts ++ steps.filterMap TextStep.given?) = earlier ++ [(path, text)] →
      result (loadModule name) ((Infer.openLibrary s root [] texts).run steps) =
        moduleOrProblem name
          (readModule (toBytes text) name (isPackagePath path || anyPackage earlier) s.allowPartialParse) ∧
      (result (loadModule name) ((Infer.openLibrary s root [] texts).run steps) =
          moduleOrProblem name (readModule (toBytes text) name (isPackagePath path) s.allowPartialParse) ↔
        (anyPackage earlier = true → isPackagePath path = true) ∨
          ∃ e, readModule (toBytes text) name (isPackagePath path) s.allowPartialParse = .error e)) ∧
    (givenFor name (texts ++ steps.filterMap TextStep.given?) = [] →
      result (loadModule name) ((Infer.openLibrary s root [] texts).run steps) =
        .error (.unresolved ("No module named " ++ name))) := by
  refine ⟨fun earlier path text hgiven => ?_, fun hgiven => ?_⟩
  · have hresult := result_loadModule_last s root texts steps hgiven
    refine ⟨hresult, ?_⟩
    rw [hresult, moduleOrProblem_readModule_iff]
    refine or_congr_left ?_
    cases isPackagePath path <;> cases anyPackage earlier <;> simp
  · rw [((holds_openLibrary s root texts).run steps).result_loadModule, outcomeOf, hgiven]
    rfl

end

/-- A package, which is loaded, and then a plain file in its place. -/
def packageThenFile (text : String) : List TextStep := [.give "p/__init__.py" "", .load "p", .give "p.py" text]

theorem givenFor_packageThenFile (text : String) :
    givenFor "p" ([] ++ (packageThenFile text).filterMap TextStep.given?) =
      [("p/__init__.py", "")] ++ [("p.py", text)] := by
  have hpackage : moduleNameOf "p/__init__.py" = "p" := by decide +kernel
  have hplain : moduleNameOf "p.py" = "p" := by decide +kernel
  change givenFor "p" [("p/__init__.py", ""), ("p.py", text)] = _
  simp [givenFor, hpackage, hplain]

theorem anyPackage_packageThenFile : isPackagePath "p.py" = false ∧ anyPackage [("p/__init__.py", "")] = true := by
  decide +kernel

/-- The text of the plain file is read as that of a package. -/
theorem result_loadModule_given_twice :
    result (loadModule "p") ((Infer.openLibrary {} "" [] []).run (packageThenFile "from .q import A")) =
      moduleOrProblem "p" (readModule (toBytes "from .q import A") "p" true false) := by
  have hgiven := givenFor_packageThenFile "from .q import A"
  have hread := ((result_loadModule_given {} "" [] (packageThenFile "from .q import A") "p").1 _ _ _ hgiven).1
  rwa [anyPackage_packageThenFile.2, Bool.or_true] at hread

/-- Whatever the plain file says, its module is not the one that its path calls for. -/
theorem former_package : isPackagePath "p.py" = false ∧
    ∀ text m, moduleOrProblem "p" (readModule (toBytes text) "p" (isPackagePath "p.py") false) = .ok m →
      result (loadModule "p") ((Infer.openLibrary {} "" [] []).run (packageThenFile text)) ≠ .ok m := by
  refine ⟨anyPackage_packageThenFile.1, fun text m hplain hm => ?_⟩
  rw [result_loadModule_last {} "" [] (packageThenFile text) (givenFor_packageThenFile text),
    anyPackage_packageThenFile.2, Bool.or_true] at hm
  have htrue := isPackage_readModule (moduleOrProblem_ok hm)
  rw [isPackage_readModule (moduleOrProblem_ok hplain), anyPackage_packageThenFile.1] at htrue
  cases htrue

end ApiSchema
