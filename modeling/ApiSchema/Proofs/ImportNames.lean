import ApiSchema.Proofs.Entries
import ApiSchema.Source.Definition

/-!
# Names that are imported

An import statement binds names, or imports all names of a module (`bindings`, `ImportsAll`). A dotted name is made of
words with dots between them (`words`), but it is read as it is written. Both readings give the same for a statement
without blanks in its dotted names (`bindings_of_isPlain`, `importsAll_of_isPlain`).
-/
namespace ApiSchema.Source

open Text

/-! ## Dotted names -/

/-- The words of a dotted name. -/
def words (t : Tree) : List String := (t.children.filter (·.form == .identifier)).map Tree.text

/-- A dotted name by its words. -/
def dotted (t : Tree) : String := join "." (words t)

/-- A dotted name has words that are no dots themselves. -/
def HasWords (t : Tree) : Prop := ∀ w ∈ words t, w ≠ "" ∧ '.' ∉ w.toList

/-- How many dots a relative import starts with. -/
def dotsBefore (t : Tree) : Nat := ((t.children.find? (·.form == .importDots)).map (·.text.toList.count '.')).getD 0

/-- The name after the dots of a relative import. -/
def nameAfter (t : Tree) : String := ((t.children.find? (·.form == .dottedName)).map dotted).getD ""

/-- A module name, dots included, that is written without blanks. -/
def IsPlainSource (t : Tree) : Prop :=
  if t.form == .relativeImport then
    t.text.toList = List.replicate (dotsBefore t) '.' ++ (nameAfter t).toList ∧
      ∀ d, t.children.find? (·.form == .dottedName) = some d → HasWords d
  else t.text = dotted t

/-- An imported name that is written without blanks. -/
def IsPlainName (c : Tree) : Prop :=
  match c.form with
  | .dottedName => c.text = dotted c ∧ HasWords c
  | .aliasedImport => ∀ d, c.child? .name = some d → d.text = dotted d
  | _ => True

/-- A statement in which dotted names are written without blanks. -/
def IsPlain (t : Tree) : Prop :=
  (∀ m, t.child? .moduleName = some m → IsPlainSource m) ∧ ∀ c ∈ t.children, IsPlainName c

/-! ## Bindings -/

/-- How dotted names are read. -/
structure Spelling where
  /-- The first word of a dotted name. -/
  first : Tree → String
  whole : Tree → String
  /-- The module that names are imported from. -/
  source : Tree → String

section

variable (scope : String) (isPackage : Bool)

/-- Dotted names as they are written. -/
def asWritten : Spelling := ⟨fun c => firstSegment c.text, Tree.text, importSource scope isPackage⟩

/-- Dotted names by their words. -/
def byWords : Spelling where
  first c := (words c).headD ""
  whole := dotted
  source c :=
    if c.form == .relativeImport then
      relativeModule (if isPackage then scope ++ ".__init__" else scope) (nameAfter c) (dotsBefore c)
    else dotted c

end

namespace Spelling

variable (r : Spelling)

/-- What is imported under a name of its own. -/
def aliased (c : Tree) : String := ((c.child? .name).map r.whole).getD ""

/-- The name that is bound by the import of a module, with what it stands for. -/
def boundModule? (c : Tree) : Option (String × String) :=
  match c.form with
  | .dottedName => some (r.first c, r.first c)
  | .aliasedImport => some (c.childText .localName, r.aliased c)
  | _ => none

/-- The name that is bound by the import of a name from a module, with what it stands for. -/
def boundMember? (source : String) (c : Tree) : Option (String × String) :=
  if c.role == some .moduleName then none
  else match c.form with
    | .dottedName => some (r.whole c, qualify source (r.whole c))
    | .aliasedImport => some (c.childText .localName, qualify source (r.aliased c))
    | _ => none

/-- The names that a statement imports, with what they stand for. -/
def bindings (t : Tree) : List (String × String) :=
  match t.form with
  | .importStatement => t.children.filterMap r.boundModule?
  | .importFromStatement =>
    (t.child? .moduleName).elim [] fun m => t.children.filterMap (r.boundMember? (r.source m))
  | _ => []

/-- A statement imports all names of a module. -/
def ImportsAll (source : String) (t : Tree) : Prop :=
  t.form = .importFromStatement ∧ ∃ m, t.child? .moduleName = some m ∧ r.source m = source ∧
    ∃ c ∈ t.children, c.role ≠ some .moduleName ∧ c.form = .wildcardImport

end Spelling

/-! ## Plain statements -/

section

variable {t c : Tree} {scope : String} {isPackage : Bool}

theorem toList_join_cons (w : String) (ws : List String) :
    ∃ rest, (join "." (w :: ws)).toList = w.toList ++ rest ∧ rest.takeWhile (· != '.') = [] := by
  cases ws with
  | nil => exact ⟨[], by simp [join], rfl⟩
  | cons v ws =>
    refine ⟨'.' :: (join "." (v :: ws)).toList, ?_, rfl⟩
    simp [join, String.intercalate_cons_cons]

theorem firstSegment_dotted (h : HasWords c) : firstSegment (dotted c) = (words c).headD "" := by
  unfold dotted
  cases hwords : words c with
  | nil => rfl
  | cons w ws =>
    have hw : ∀ x ∈ w.toList, (x != '.') = true := by
      intro x hx
      have hdot := (h w (by simp [hwords])).2
      exact bne_iff_ne.2 fun e => hdot (e ▸ hx)
    rw [List.headD_cons, ← String.toList_inj, firstSegment, toList_cut_fst]
    obtain ⟨rest, hjoin, hrest⟩ := toList_join_cons w ws
    rw [hjoin, List.takeWhile_append_of_pos hw, hrest, List.append_nil]

theorem dropWhile_dotted (h : HasWords c) : (dotted c).toList.dropWhile (· == '.') = (dotted c).toList := by
  unfold dotted
  cases hwords : words c with
  | nil => rfl
  | cons w ws =>
    obtain ⟨hne, hdot⟩ := h w (by simp [hwords])
    obtain ⟨x, xs, hx⟩ := List.exists_cons_of_ne_nil (mt String.toList_eq_nil_iff.1 hne)
    have hfirst : (x == '.') = false := beq_eq_false_iff_ne.2 fun e => hdot (by simp [hx, e])
    obtain ⟨rest, hjoin, -⟩ := toList_join_cons w ws
    simp [hjoin, hx, hfirst]

theorem source_of_isPlainSource (h : IsPlainSource c) :
    (asWritten scope isPackage).source c = (byWords scope isPackage).source c := by
  unfold asWritten byWords importSource
  dsimp only
  unfold IsPlainSource at h
  split
  · rename_i hform
    rw [if_pos hform] at h
    obtain ⟨htext, hwords⟩ := h
    have hname : (nameAfter c).toList.dropWhile (· == '.') = (nameAfter c).toList := by
      unfold nameAfter
      cases hd : c.children.find? (·.form == .dottedName) with
      | none => rfl
      | some d => exact dropWhile_dotted (hwords d hd)
    have hdots : List.dropWhile (· == '.') (List.replicate (dotsBefore c) '.') = [] := by simp
    have hstrip : stripLeftOf (· == '.') c.text = nameAfter c := by
      rw [stripLeftOf, htext, List.dropWhile_append, hdots, List.isEmpty_nil, if_pos rfl, hname,
        String.ofList_toList]
    have hlength : c.text.length = dotsBefore c + (nameAfter c).length := by
      rw [← String.length_toList, htext, List.length_append, List.length_replicate, String.length_toList]
    rw [hstrip, hlength]
    congr 1
    omega
  · rename_i hform
    rwa [if_neg hform] at h

theorem aliased_of_isPlainName (h : IsPlainName c) (hform : c.form = .aliasedImport) :
    (asWritten scope isPackage).aliased c = (byWords scope isPackage).aliased c := by
  unfold IsPlainName at h
  rw [hform] at h
  unfold Spelling.aliased
  cases hd : c.child? .name with
  | none => rfl
  | some d => exact h d hd

theorem boundModule?_of_isPlainName (h : IsPlainName c) :
    (asWritten scope isPackage).boundModule? c = (byWords scope isPackage).boundModule? c := by
  unfold Spelling.boundModule?
  split
  · rename_i hform
    unfold IsPlainName at h
    rw [hform] at h
    have hfirst : (asWritten scope isPackage).first c = (byWords scope isPackage).first c :=
      (congrArg firstSegment h.1).trans (firstSegment_dotted h.2)
    rw [hfirst]
  · rename_i hform
    rw [aliased_of_isPlainName h hform]
  · rfl

theorem boundMember?_of_isPlainName (h : IsPlainName c) (source : String) :
    (asWritten scope isPackage).boundMember? source c = (byWords scope isPackage).boundMember? source c := by
  unfold Spelling.boundMember?
  split
  · rfl
  · split
    · rename_i hform
      unfold IsPlainName at h
      rw [hform] at h
      have hwhole : (asWritten scope isPackage).whole c = (byWords scope isPackage).whole c := h.1
      rw [hwhole]
    · rename_i hform
      rw [aliased_of_isPlainName h hform]
    · rfl

/-- Without blanks in dotted names, a statement binds the names that its words tell. -/
theorem bindings_of_isPlain (h : IsPlain t) :
    (asWritten scope isPackage).bindings t = (byWords scope isPackage).bindings t := by
  unfold Spelling.bindings
  split
  · exact List.filterMap_congr fun c hc => boundModule?_of_isPlainName (h.2 c hc)
  · cases hm : t.child? .moduleName with
    | none => rfl
    | some m =>
      dsimp only [Option.elim_some]
      rw [source_of_isPlainSource (h.1 m hm)]
      exact List.filterMap_congr fun c hc => boundMember?_of_isPlainName (h.2 c hc) _
  · rfl

theorem importsAll_of_isPlain (h : IsPlain t) (source : String) :
    (asWritten scope isPackage).ImportsAll source t ↔ (byWords scope isPackage).ImportsAll source t := by
  refine and_congr_right fun _ => exists_congr fun m => and_congr_right fun hm => ?_
  rw [source_of_isPlainSource (h.1 m hm)]

end

/-! ## Tables of imports -/

/-- A run whose steps set some entries sets all of them in order. -/
theorem foldl_setAll {σ τ α : Type} (step : σ → τ → σ) (inv : σ → Prop) (view : σ → Entries α)
    (new : τ → List (String × α)) {xs : List τ}
    (hstep : ∀ s, inv s → ∀ x ∈ xs, inv (step s x) ∧ view (step s x) = (view s).setAll (new x)) (s : σ) (hs : inv s) :
    view (xs.foldl step s) = (view s).setAll (xs.flatMap new) := by
  induction xs generalizing s with
  | nil => rfl
  | cons x xs ih =>
    obtain ⟨hinv, hview⟩ := hstep s hs x List.mem_cons_self
    rw [List.foldl_cons, ih (fun s hs x hx => hstep s hs x (List.mem_cons_of_mem _ hx)) _ hinv, hview,
      List.flatMap_cons]
    exact (List.foldl_append ..).symm

/-- A run whose steps put a name into a list puts it there if one of its steps does. -/
theorem foldl_mem {σ τ α : Type} (step : σ → τ → σ) (inv : σ → Prop) (view : σ → List α) (puts : τ → Prop) {a : α}
    {xs : List τ} (hstep : ∀ s, inv s → ∀ x ∈ xs, inv (step s x) ∧ (a ∈ view (step s x) ↔ a ∈ view s ∨ puts x)) (s : σ)
    (hs : inv s) : a ∈ view (xs.foldl step s) ↔ a ∈ view s ∨ ∃ x ∈ xs, puts x := by
  induction xs generalizing s with
  | nil => simp
  | cons x xs ih =>
    obtain ⟨hinv, hview⟩ := hstep s hs x List.mem_cons_self
    rw [List.foldl_cons, ih (fun s hs x hx => hstep s hs x (List.mem_cons_of_mem _ hx)) _ hinv, hview, or_assoc,
      List.exists_mem_cons_iff]

theorem names_addWildcard (i : Imports) (s : String) : (i.addWildcard s).names = i.names := by
  unfold Imports.addWildcard
  split
  · rfl
  · rfl

theorem mem_addWildcard {i : Imports} {s source : String} :
    s ∈ (i.addWildcard source).wildcards ↔ s ∈ i.wildcards ∨ (s ≠ "" ∧ source = s) := by
  unfold Imports.addWildcard
  split
  · rename_i h
    obtain h | h : source = "" ∨ source ∈ i.wildcards := by simpa using h
    · subst h
      exact ⟨.inl, fun hs => hs.elim id fun hs => absurd hs.2.symm hs.1⟩
    · exact ⟨.inl, fun hs => hs.elim id fun hs => hs.2 ▸ h⟩
  · rename_i h
    obtain ⟨h, -⟩ : source ≠ "" ∧ source ∉ i.wildcards := by simpa using h
    constructor
    · rintro hs
      refine (List.mem_append.1 hs).imp id fun hs => ?_
      cases List.mem_singleton.1 hs
      exact ⟨h, rfl⟩
    · rintro (hs | ⟨-, rfl⟩)
      · exact List.mem_append_left _ hs
      · exact List.mem_append_right _ List.mem_cons_self

section

variable {t : Tree} {i : Imports} {scope : String} {isPackage : Bool}

theorem names_withImport (scope : String) (isPackage : Bool) : (withImport i t).names =
    i.names.setAll (t.children.filterMap (asWritten scope isPackage).boundModule?) := by
  rw [List.filterMap_eq_flatMap_toList]
  refine foldl_setAll _ (fun _ => True) Imports.names _ (fun i _ c hc => ⟨trivial, ?_⟩) i trivial
  unfold Spelling.boundModule?
  cases c.form <;> rfl

theorem wildcards_withImport (i : Imports) (t : Tree) : (withImport i t).wildcards = i.wildcards := by
  unfold withImport
  induction t.children generalizing i with
  | nil => rfl
  | cons c cs ih =>
    rw [List.foldl_cons, ih]
    split
    · rfl
    · rfl
    · rfl

theorem names_withImportFrom : (withImportFrom i scope isPackage t).names = i.names.setAll
    ((t.child? .moduleName).elim [] fun m =>
      t.children.filterMap ((asWritten scope isPackage).boundMember? (importSource scope isPackage m))) := by
  unfold withImportFrom
  cases t.child? .moduleName with
  | none => rfl
  | some m =>
    dsimp only [Option.elim_some]
    rw [List.filterMap_eq_flatMap_toList]
    refine foldl_setAll _ (fun _ => True) Imports.names _ (fun i _ c hc => ⟨trivial, ?_⟩) i trivial
    unfold Spelling.boundMember?
    split
    · rfl
    · cases c.form with
      | wildcardImport => exact names_addWildcard i _
      | _ => rfl

theorem mem_wildcards_withImportFrom {s : String} (hform : t.form = .importFromStatement) :
    s ∈ (withImportFrom i scope isPackage t).wildcards ↔
      s ∈ i.wildcards ∨ (s ≠ "" ∧ (asWritten scope isPackage).ImportsAll s t) := by
  unfold withImportFrom Spelling.ImportsAll
  cases hm : t.child? .moduleName with
  | none => simp
  | some m =>
    dsimp only
    rw [foldl_mem _ (fun _ => True) Imports.wildcards
      (fun c => s ≠ "" ∧ importSource scope isPackage m = s ∧ c.role ≠ some .moduleName ∧ c.form = .wildcardImport)
      (fun i _ c _ => ⟨trivial, ?_⟩) i trivial]
    · refine or_congr_right ⟨?_, ?_⟩
      · rintro ⟨c, hc, hs, horigin, hrole, hstar⟩
        exact ⟨hs, hform, m, rfl, horigin, c, hc, hrole, hstar⟩
      · rintro ⟨hs, -, m', hm', horigin, c, hc, hrole, hstar⟩
        cases hm'
        exact ⟨c, hc, hs, horigin, hrole, hstar⟩
    · split
      · rename_i hrole
        exact ⟨.inl, fun hs => hs.elim id fun hs => absurd (eq_of_beq hrole) hs.2.2.1⟩
      · rename_i hrole
        by_cases hstar : c.form = .wildcardImport
        · rw [hstar]
          dsimp only
          rw [mem_addWildcard]
          exact or_congr_right ⟨fun hs => ⟨hs.1, hs.2, by simpa using hrole, rfl⟩, fun hs => ⟨hs.1, hs.2.1⟩⟩
        · refine Iff.trans ?_ (or_iff_left fun hs => hstar hs.2.2.2).symm
          split
          · exact .rfl
          · exact .rfl
          · contradiction
          · exact .rfl

end

end ApiSchema.Source
