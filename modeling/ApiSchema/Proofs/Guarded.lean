import ApiSchema.Proofs.Building
import ApiSchema.Proofs.ImportNames
import ApiSchema.Proofs.Sources

/-!
# Definitions under guards

A module defines classes and functions and imports names at its top, and also under conditions and exception handlers
there (`guardedIn`). Each statement that is reached is recorded, and of two statements for one name the later one counts
(`readModule_reached`).

The branches after `elif` and `finally` are not entered: what stands there is missed (`withStatements_elif_finally`).
-/
namespace ApiSchema.Source

open Text

/-! ## Definitions -/

section

variable (scope : String)

/-- A statement whose decorators have values, and so has the body of the class if it defines one. -/
def IsReadable (t : Tree) : Prop :=
  ∃ found decorators, undecorated t = .ok (found, decorators) ∧
    ∀ d, found = some d → d.form = .classDefinition → Lexer.isName (d.childText .name) = true →
      ∃ c, classOf d decorators scope = .ok c

/-- The class that a statement defines, by its name. -/
def class? (t : Tree) : Option (String × Class) := do
  let (found, decorators) ← (undecorated t).toOption
  let d ← found
  if d.form == .classDefinition && Lexer.isName (d.childText .name) then
    (classOf d decorators scope).toOption.map (d.childText .name, ·)
  else none

/-- The function that a statement defines, by its name. -/
def function? (t : Tree) : Option (String × Function) := do
  let (found, decorators) ← (undecorated t).toOption
  let d ← found
  if isFunction d.form && Lexer.isName (d.childText .name) then
    some (d.childText .name, functionOf d decorators scope none)
  else none

/-- The imports after a statement. -/
def importsAfter (isPackage : Bool) (i : Imports) (t : Tree) : Imports :=
  match t.form with
  | .importStatement => withImport i t
  | .importFromStatement => withImportFrom i scope isPackage t
  | _ => i

end

/-- The module with what a statement defines and imports. -/
def Module.adding (m : Module) (t : Tree) : Module :=
  { m with
    imports := importsAfter m.name m.isPackage m.imports t
    classes := m.classes.setAll (class? m.name t).toList
    functions := m.functions.setAll (function? m.name t).toList }

section

variable {m m' : Module} {t : Tree}

theorem importsAfter_of_form (himport : t.form ≠ .importStatement) (hfrom : t.form ≠ .importFromStatement)
    (scope : String) (isPackage : Bool) (i : Imports) : importsAfter scope isPackage i t = i := by
  unfold importsAfter
  split
  · contradiction
  · contradiction
  · rfl

section

variable {scope : String} {d : Tree} {decorators : List Call} (hd : undecorated t = .ok (some d, decorators))

include hd

theorem class?_of_definition : class? scope t =
    if d.form == .classDefinition && Lexer.isName (d.childText .name) then
      (classOf d decorators scope).toOption.map (d.childText .name, ·)
    else none := by
  rw [class?, hd]
  rfl

theorem function?_of_definition : function? scope t =
    if isFunction d.form && Lexer.isName (d.childText .name) then
      some (d.childText .name, functionOf d decorators scope none)
    else none := by
  rw [function?, hd]
  rfl

theorem isReadable_of_definition : IsReadable scope t ↔
    (d.form = .classDefinition → Lexer.isName (d.childText .name) = true →
      ∃ c, classOf d decorators scope = .ok c) := by
  constructor
  · rintro ⟨found, decorators', hfound, h⟩
    cases hd.symm.trans hfound
    exact h d rfl
  · intro h
    refine ⟨some d, decorators, hd, fun d' hd' => ?_⟩
    cases hd'
    exact h

end

/-- A definition is added to the module if it can be read, and otherwise there is no module. -/
theorem withDefinition_cases (himport : t.form ≠ .importStatement) (hfrom : t.form ≠ .importFromStatement) :
    (IsReadable m.name t ∧ m.withDefinition t = .ok (m.adding t)) ∨
      (¬ IsReadable m.name t ∧ ∃ f, m.withDefinition t = .error f) := by
  unfold Module.withDefinition Module.adding
  rw [importsAfter_of_form himport hfrom]
  cases hfound : undecorated t with
  | error f => exact .inr ⟨by simp [IsReadable, hfound], f, rfl⟩
  | ok found =>
    obtain ⟨_ | d, decorators⟩ := found
    · exact .inl ⟨⟨none, decorators, hfound, nofun⟩, by rw [class?, function?, hfound]; rfl⟩
    · rw [isReadable_of_definition hfound, class?_of_definition hfound, function?_of_definition hfound]
      dsimp only [bind, Except.bind]
      cases hname : Lexer.isName (d.childText .name) with
      | false =>
        refine .inl ⟨nofun, ?_⟩
        simp only [Bool.and_false]
        rfl
      | true =>
        by_cases hclass : d.form = .classDefinition
        · rw [hclass]
          cases hc : classOf d decorators m.name with
          | error f => exact .inr ⟨by simp, f, rfl⟩
          | ok c =>
            have hcalled := (over_classOf (R := fun _ => True) (fun _ _ => trivial) trivial decorators c hc).called.1
            exact .inl ⟨fun _ _ => ⟨c, rfl⟩, by rw [← hcalled]; rfl⟩
        · refine .inl ⟨fun h => absurd h hclass, ?_⟩
          have hclass' : (d.form == .classDefinition) = false := by simpa using hclass
          rw [hclass']
          cases isFunction d.form with
          | false | true => rfl

/-- A statement that is no definition can only import something. -/
theorem adding_of_form (hdecorated : t.form ≠ .decoratedDefinition) (hclass : t.form ≠ .classDefinition)
    (hfunction : isFunction t.form = false) (m : Module) : IsReadable m.name t ∧
      m.adding t = { m with imports := importsAfter m.name m.isPackage m.imports t } := by
  have ht : undecorated t = .ok (some t, []) := if_neg (by simpa using hdecorated)
  refine ⟨(isReadable_of_definition ht).2 fun h => absurd h hclass, ?_⟩
  have hno : class? m.name t = none := by
    rw [class?_of_definition ht, beq_eq_false_iff_ne.2 hclass]
    rfl
  have hno' : function? m.name t = none := by
    rw [function?_of_definition ht, hfunction]
    rfl
  rw [Module.adding, hno, hno']
  rfl

theorem withItem_cases : (IsReadable m.name t ∧ m.withItem t = .ok (m.adding t)) ∨
    (¬ IsReadable m.name t ∧ ∃ f, m.withItem t = .error f) := by
  unfold Module.withItem
  split
  case h_3 => exact withDefinition_cases ‹_› ‹_›
  all_goals
    rename_i hform
    obtain ⟨hreadable, hm⟩ := adding_of_form (t := t) (by simp [hform]) (by simp [hform]) (by rw [hform]; rfl) m
    rw [hm, importsAfter, hform]
    exact .inl ⟨hreadable, rfl⟩

/-- Statements are added one after the other if all of them can be read, and otherwise there is no module. -/
theorem foldlM_withItem (ts : List Tree) :
    ((∀ t ∈ ts, IsReadable m.name t) ∧ ts.foldlM Module.withItem m = .ok (ts.foldl Module.adding m)) ∨
      (¬ (∀ t ∈ ts, IsReadable m.name t) ∧ ∃ f, ts.foldlM Module.withItem m = .error f) := by
  induction ts generalizing m with
  | nil => exact .inl ⟨List.forall_mem_nil _, rfl⟩
  | cons t ts ih =>
    rw [List.foldlM_cons, List.foldl_cons, List.forall_mem_cons]
    rcases withItem_cases (m := m) (t := t) with ⟨ht, hm⟩ | ⟨ht, f, hf⟩
    · rw [hm]
      exact (ih (m := m.adding t)).imp (fun h => ⟨⟨ht, h.1⟩, h.2⟩) fun h => ⟨fun hall => h.1 hall.2, h.2⟩
    · rw [hf]
      exact .inr ⟨fun hall => ht hall.1, f, rfl⟩

/-! ## Imports -/

section

variable {i : Imports} {scope : String} {isPackage : Bool}

theorem names_importsAfter : (importsAfter scope isPackage i t).names =
    i.names.setAll ((asWritten scope isPackage).bindings t) := by
  unfold importsAfter Spelling.bindings
  cases t.form with
  | importStatement => exact names_withImport scope isPackage
  | importFromStatement => exact names_withImportFrom
  | _ => rfl

theorem mem_wildcards_importsAfter {s : String} : s ∈ (importsAfter scope isPackage i t).wildcards ↔
    s ∈ i.wildcards ∨ (s ≠ "" ∧ (asWritten scope isPackage).ImportsAll s t) := by
  by_cases hform : t.form = .importFromStatement
  · unfold importsAfter
    rw [hform]
    exact mem_wildcards_withImportFrom hform
  · refine Iff.trans ?_ (or_iff_left fun hs => hform hs.2.1).symm
    unfold importsAfter
    split
    · rw [wildcards_withImport]
    · contradiction
    · exact .rfl

end

/-! ## Modules -/

/-- A module has the classes, functions and imports of some statements. Of two statements for one name the later one
counts. Dotted names are taken by their words if they are written without blanks. -/
structure Records (scope : String) (isPackage : Bool) (ts : List Tree) (m : Module) : Prop where
  classes : ∀ name, m.classes.get? name = Entries.last? (ts.filterMap (class? scope)) name
  functions : ∀ name, m.functions.get? name = Entries.last? (ts.filterMap (function? scope)) name
  names : ∀ name, m.imports.names.get? name = Entries.last? (ts.flatMap (asWritten scope isPackage).bindings) name
  wildcards : ∀ source, source ∈ m.imports.wildcards ↔
    source ≠ "" ∧ ∃ t ∈ ts, (asWritten scope isPackage).ImportsAll source t
  plain : ∀ t ∈ ts, IsPlain t → (asWritten scope isPackage).bindings t = (byWords scope isPackage).bindings t ∧
    ∀ source, (asWritten scope isPackage).ImportsAll source t ↔ (byWords scope isPackage).ImportsAll source t

theorem records_foldl_adding (scope : String) (isPackage incomplete : Bool) (ts : List Tree) :
    Records scope isPackage ts (ts.foldl Module.adding { name := scope, isPackage, incomplete }) where
  classes name := by
    rw [List.filterMap_eq_flatMap_toList, foldl_setAll Module.adding (·.name = scope) Module.classes
      (fun t => (class? scope t).toList) (fun m hm t _ => ⟨hm, by rw [← hm]; rfl⟩) _ rfl]
    exact Entries.get?_ofPairs _ name
  functions name := by
    rw [List.filterMap_eq_flatMap_toList, foldl_setAll Module.adding (·.name = scope) Module.functions
      (fun t => (function? scope t).toList) (fun m hm t _ => ⟨hm, by rw [← hm]; rfl⟩) _ rfl]
    exact Entries.get?_ofPairs _ name
  names name := by
    rw [foldl_setAll Module.adding (fun m => m.name = scope ∧ m.isPackage = isPackage) (·.imports.names)
      (asWritten scope isPackage).bindings
      (fun m hm t _ => ⟨hm, by rw [← hm.1, ← hm.2]; exact names_importsAfter⟩) _ ⟨rfl, rfl⟩]
    exact Entries.get?_ofPairs _ name
  wildcards source := by
    rw [foldl_mem Module.adding (fun m => m.name = scope ∧ m.isPackage = isPackage) (·.imports.wildcards)
      (fun t => source ≠ "" ∧ (asWritten scope isPackage).ImportsAll source t)
      (fun m hm t _ => ⟨hm, by rw [← hm.1, ← hm.2]; exact mem_wildcards_importsAfter⟩) _ ⟨rfl, rfl⟩]
    constructor
    · rintro (h | ⟨t, ht, hsource, hall⟩)
      · cases h
      · exact ⟨hsource, t, ht, hall⟩
    · rintro ⟨hsource, t, ht, hall⟩
      exact .inr ⟨t, ht, hsource, hall⟩
  plain _ _ ht := ⟨bindings_of_isPlain ht, importsAll_of_isPlain ht⟩

/-- The module of a text has the classes, functions and imports at its top and under guards, other than in branches
after `elif` and `finally`. There is a module unless the text is binary or cannot be parsed, or a literal in one of the
statements has no value. -/
theorem readModule_reached (bytes : List Nat) (scope : String) (isPackage allowPartial : Bool) :
    ((∃ m, readModule bytes scope isPackage allowPartial = .ok m) ↔
      0 ∉ bytes.take binaryWindow ∧ ((parse (ofBytes bytes)).complete = true ∨ allowPartial = true) ∧
        ∀ t ∈ guardedIn isEntered (parse (ofBytes bytes)).statements, IsReadable scope t) ∧
    ∀ m, readModule bytes scope isPackage allowPartial = .ok m →
      Records scope isPackage (guardedIn isEntered (parse (ofBytes bytes)).statements) m := by
  unfold readModule
  generalize parse (ofBytes bytes) = parsed
  by_cases hbinary : (bytes.take binaryWindow).contains 0 = true
  · rw [if_pos hbinary]
    exact ⟨iff_of_false nofun fun h => h.1 (by simpa using hbinary), nofun⟩
  · rw [if_neg hbinary]
    dsimp only
    by_cases hbroken : (!parsed.complete && !allowPartial) = true
    · rw [if_pos hbroken]
      refine ⟨iff_of_false nofun fun h => ?_, nofun⟩
      rcases h.2.1 with hcomplete | hpartial
      · simp [hcomplete] at hbroken
      · simp [hpartial] at hbroken
    · have hparsed : parsed.complete = true ∨ allowPartial = true := by simpa [or_iff_not_imp_left] using hbroken
      have hzero : 0 ∉ bytes.take binaryWindow := by simpa using hbinary
      rw [if_neg hbroken, withStatements_eq]
      obtain ⟨hreadable, hm⟩ | ⟨hreadable, f, hf⟩ := foldlM_withItem (guardedIn isEntered parsed.statements)
        (m := { name := scope, isPackage, incomplete := !parsed.complete })
      · rw [hm]
        refine ⟨iff_of_true ⟨_, rfl⟩ ⟨hzero, hparsed, hreadable⟩, fun m h => ?_⟩
        cases h
        exact records_foldl_adding scope isPackage _ _
      · rw [hf]
        exact ⟨iff_of_false nofun fun h => hreadable h.2.2, nofun⟩

end

/-! ## Missed branches -/

section

open Building

/-- The import of a module with a name of one word. -/
def importing (name : String) : Written :=
  whole .importStatement none ("import " ++ name) fun start =>
    [whole .dottedName (some .name) name (fun start => [leaf .identifier none name start]) (start + 7)]

/-- Statements that are run if a condition holds, and others if not that one but another one does. -/
def branchingElif (condition other : String) (yes no : List Written) : Written :=
  let upper := "if " ++ condition ++ ": " ++ (line none yes 0).text ++ "\n"
  let lower := "elif " ++ other ++ ": " ++ (line none no 0).text
  whole .ifStatement none (upper ++ lower) fun start =>
    [leaf .identifier none condition (start + 3), line none yes (start + condition.length + 5),
      whole .elifClause (some .alternative) lower (fun start =>
        [leaf .identifier none other (start + 5), line none no (start + other.length + 7)]) (start + upper.length)]

/-- Statements that are run, and others after them whatever happens. -/
def finishing (body last : List Written) : Written :=
  let upper := "try: " ++ (line none body 0).text ++ "\n"
  let lower := "finally: " ++ (line none last 0).text
  whole .tryStatement none (upper ++ lower) fun start =>
    [line (some .body) body (start + 5),
      whole .finallyClause none lower (fun start => [line none last (start + 9)]) (start + upper.length)]

def twoBranches : List Tree :=
  inRow 1 [branchingElif "x" "y" [importing "a"] [importing "b"], finishing [importing "c"] [importing "d"]] 0

end

/-- Four modules are imported under guards, and those after `elif` and `finally` are missed. -/
theorem withStatements_elif_finally :
    (guardedIn (fun _ => true) twoBranches).flatMap (byWords "m" false).bindings =
      [("a", "a"), ("b", "b"), ("c", "c"), ("d", "d")] ∧
    (Module.withStatements { name := "m" } twoBranches).toOption.map (·.imports.names) =
      some [("a", "a"), ("c", "c")] := by
  decide +kernel

end ApiSchema.Source
