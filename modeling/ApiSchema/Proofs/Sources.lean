import ApiSchema.Proofs.Denotes
import ApiSchema.Proofs.Pipes

/-!
# Modules and their names

A module is read from the statements at its top and under guards, one after the other (`withStatements_eq`). A text
gives a module that goes by the name it was read for, and each class of the module is listed under its own name, which
has no dot (`named_readModule`). A library in which this holds for every module that can be loaded is sound
(`Library.Sound`). Whatever texts and files it is opened over, a library is sound (`sound_openLibrary`), and stays so
while it is read (`Library.Sound.alike`).

In a sound library the schemas of no two classes are kept under the same key (`Found.eq_of_key`), and the qualified name
of a class is placed in its module (`Library.Sound.placed`), even if a shorter start of the name is a module too.
-/
namespace ApiSchema

open Source Text Infer

variable {a b : Located} {name : String} {m : Module} {c : Source.Class} {r : Library} {i j : Direction}
  {texts : Entries (Except ReadError Source.Module)}

/-! ## Names -/

namespace Source

variable {c : Char} {s t home home' : String}

/-- The code points of blanks, quotes, the number sign and the dot. -/
def nameless : List Nat :=
  List.range' 9 5 ++ List.range' 28 5 ++ [0x22, 0x23, 0x27, 0x2E, 0x85, 0xA0, 0x1680] ++ List.range' 0x2000 11 ++
    [0x2028, 0x2029, 0x202F, 0x205F, 0x3000]

theorem nameless_all : (nameless.all fun n =>
    !Lexer.isNameStart (Char.ofNat n) && !Lexer.isNameContinue (Char.ofNat n)) = true := by
  decide +kernel

theorem not_mem_nameless (hs : Lexer.isName s = true) (hc : c ∈ s.toList) : c.toNat ∉ nameless := by
  intro hmem
  have hall := List.all_eq_true.1 nameless_all _ hmem
  rw [Char.ofNat_toNat, Bool.and_eq_true, Bool.not_eq_true', Bool.not_eq_true'] at hall
  unfold Lexer.isName at hs
  cases hlist : s.toList with
  | nil =>
    rw [hlist] at hc
    cases hc
  | cons d ds =>
    rw [hlist] at hs hc
    obtain ⟨hstart, hrest⟩ := Bool.and_eq_true_iff.1 hs
    rcases List.mem_cons.1 hc with rfl | hc
    · exact absurd hstart (by simp [hall.1])
    · exact absurd (List.all_eq_true.1 hrest c hc) (by simp [hall.2])

theorem isBlank_of_isName (hs : Lexer.isName s = true) (hc : c ∈ s.toList) : isBlank c = false := by
  refine Bool.eq_false_iff.2 fun hblank => not_mem_nameless hs hc ?_
  simp only [isBlank, Bool.or_eq_true, Bool.and_eq_true, decide_eq_true_eq, beq_iff_eq] at hblank
  simp only [nameless, List.mem_append, List.mem_range'_1, List.mem_cons, List.not_mem_nil, or_false]
  omega

theorem dot_not_mem_of_isName (hs : Lexer.isName s = true) : '.' ∉ s.toList :=
  fun hc => not_mem_nameless hs hc (by decide)

theorem sharp_not_mem_of_isName (hs : Lexer.isName s = true) : '#' ∉ s.toList :=
  fun hc => not_mem_nameless hs hc (by decide)

theorem isEmpty_of_isName (hs : Lexer.isName s = true) : s.isEmpty = false := by
  refine Bool.eq_false_iff.2 fun hempty => ?_
  rw [String.isEmpty_iff.1 hempty] at hs
  cases hs

theorem dotList : ".".toList = ['.'] := rfl

/-- The parts of the name of a module. -/
def scopeParts (home : String) : List String := if home.isEmpty then [] else split '.' home

theorem join_scopeParts (home : String) : join "." (scopeParts home) = home := by
  unfold scopeParts
  split
  · rename_i hempty
    rw [String.isEmpty_iff.1 hempty]
    rfl
  · exact join_split dotList home

/-- The parts of a qualified name are those of its scope, and the name. -/
theorem split_qualify (hs : '.' ∉ s.toList) : split '.' (qualify home s) = scopeParts home ++ [s] := by
  have hself : split '.' s = [s] := @split_join '.' "." [s] dotList (by simpa using hs) (List.cons_ne_nil _ _)
  unfold qualify scopeParts
  split
  · exact hself
  · rw [split_append dotList, hself]

theorem qualify_inj (hs : '.' ∉ s.toList) (ht : '.' ∉ t.toList) (h : qualify home s = qualify home' t) :
    home = home' ∧ s = t := by
  have hparts := congrArg (split '.') h
  rw [split_qualify hs, split_qualify ht] at hparts
  obtain ⟨hscope, hname⟩ := List.append_inj' hparts rfl
  refine ⟨?_, (List.cons.inj hname).1⟩
  rw [← join_scopeParts home, hscope, join_scopeParts]

end Source

/-! ## Reading a module -/

/-- What is read, if anything, has a property. -/
def Yields {ε α : Type} (P : α → Prop) (x : Except ε α) : Prop := ∀ a, x = .ok a → P a

namespace Yields

variable {ε α β : Type} {P : α → Prop} {Q : β → Prop}

theorem pure {a : α} (h : P a) : Yields P (pure a : Except ε α) := by
  intro b hb
  cases hb
  exact h

theorem throw {e : ε} : Yields P (throw e : Except ε α) := nofun

theorem bind {x : Except ε α} {f : α → Except ε β} (hx : Yields P x) (hf : ∀ a, P a → Yields Q (f a)) :
    Yields Q (x >>= f) := by
  cases x with
  | error e => nofun
  | ok a => exact hf a (hx a rfl)

theorem any (x : Except ε α) : Yields (fun _ => True) x := fun _ _ => trivial

theorem mapError {ε' : Type} {x : Except ε α} (hx : Yields P x) (f : ε → ε') : Yields P (x.mapError f) := by
  cases x with
  | error e => nofun
  | ok a => exact pure (hx a rfl)

theorem foldlM {f : α → β → Except ε α} {bs : List β} (hf : ∀ a, ∀ b ∈ bs, P a → Yields P (f a b)) {a : α} (ha : P a) :
    Yields P (bs.foldlM f a) := by
  induction bs generalizing a with
  | nil => exact pure ha
  | cons b bs ih =>
    refine bind (hf a b List.mem_cons_self ha) fun a' ha' => ih (fun a c hc => ?_) ha'
    exact hf a c (List.mem_cons_of_mem _ hc)

end Yields

namespace Source

/-! ### Statements under guards -/

/-- What only holds other statements: conditions, exception handlers and their branches. -/
def isGuard : Form → Bool
  | .ifStatement | .elifClause | .elseClause | .tryStatement | .exceptClause | .finallyClause | .block => true
  | _ => false

/-- Branches that are looked into. -/
def isEntered (f : Form) : Bool := f != .elifClause && f != .finallyClause

mutual

/-- The statements of a tree in the order of the text, with guards replaced by what they hold if they are entered. -/
def guarded (enters : Form → Bool) : Tree → List Tree
  | .node form role span text children =>
    if isGuard form then if enters form then guardedIn enters children else []
    else [.node form role span text children]

def guardedIn (enters : Form → Bool) : List Tree → List Tree
  | [] => []
  | t :: ts => guarded enters t ++ guardedIn enters ts

end

/-- The module with a statement that is no guard. -/
def Module.withItem (m : Module) (t : Tree) : Except Fault Module :=
  match t.form with
  | .importStatement => return { m with imports := withImport m.imports t }
  | .importFromStatement => return { m with imports := withImportFrom m.imports m.name m.isPackage t }
  | _ => m.withDefinition t

theorem missed_of_isGuard {form : Form} (h : isGuard form = true) (hif : form ≠ .ifStatement)
    (htry : form ≠ .tryStatement)
    (hblock : form ≠ .block) (helse : form ≠ .elseClause) (hexcept : form ≠ .exceptClause) :
    form = .elifClause ∨ form = .finallyClause := by
  unfold isGuard at h
  split at h
  · contradiction
  · exact .inl rfl
  · contradiction
  · contradiction
  · contradiction
  · exact .inr rfl
  · contradiction
  · cases h

mutual

/-- A statement is read as what it holds. -/
theorem withStatement_eq (m : Module) :
    (t : Tree) → m.withStatement t = (guarded isEntered t).foldlM Module.withItem m
  | .node form role span text children => by
    unfold Module.withStatement guarded
    split
    · simp [isGuard, Module.withItem, Tree.form]
    · simp [isGuard, Module.withItem, Tree.form]
    · exact withStatements_eq m children
    · exact withStatements_eq m children
    · exact withStatements_eq m children
    · exact withStatements_eq m children
    · exact withStatements_eq m children
    · rename_i himport hfrom hif htry hblock helse hexcept
      by_cases hguard : isGuard form = true
      · obtain rfl | rfl := missed_of_isGuard hguard hif htry hblock helse hexcept
        -- no definition is found in a branch that is missed
        · exact ite_self _
        · exact ite_self _
      · have hitem : m.withItem (.node form role span text children) =
            m.withDefinition (.node form role span text children) := by
          unfold Module.withItem
          split
          · contradiction
          · contradiction
          · rfl
        rw [if_neg hguard, List.foldlM_cons, hitem]
        exact (bind_pure _).symm

theorem withStatements_eq (m : Module) :
    (ts : List Tree) → m.withStatements ts = (guardedIn isEntered ts).foldlM Module.withItem m
  | [] => rfl
  | t :: ts => by
    rw [Module.withStatements, guardedIn, List.foldlM_append, withStatement_eq m t]
    congr 1
    funext m'
    exact withStatements_eq m' ts

end

/-! ### Names of classes -/

/-- A class with a name, in a scope. -/
def Class.Called (scope name : String) (c : Class) : Prop := c.name = name ∧ c.qualifiedName = qualify scope name

/-- A module goes by a name, and each of its classes is listed under its own. -/
structure Module.Named (name : String) (m : Module) : Prop where
  name_eq : m.name = name
  classes : ∀ short c, m.classes.get? short = some c → Lexer.isName short = true ∧ c.Called name short

/-- Whether a module goes by a name, read off its classes. -/
def Module.isNamed (name : String) (m : Module) : Bool :=
  m.name == name && m.classes.all fun e =>
    Lexer.isName e.1 && e.2.name == e.1 && e.2.qualifiedName == qualify name e.1

theorem named_of_isNamed (h : m.isNamed name = true) : m.Named name := by
  obtain ⟨hname, hall⟩ := Bool.and_eq_true_iff.1 h
  refine ⟨eq_of_beq hname, fun short c hc => ?_⟩
  have hentry := List.all_eq_true.1 hall (short, c) (Entries.mem_of_get? hc)
  simp only [Bool.and_eq_true, beq_iff_eq] at hentry
  exact ⟨hentry.1.1, hentry.1.2, hentry.2⟩

/-! ### What is read -/

theorem forall_get?_set {α : Type} {es : Entries α} {P : String → α → Prop} {key : String} {x : α}
    (h : ∀ k a, es.get? k = some a → P k a) (hx : P key x) : ∀ k a, (es.set key x).get? k = some a → P k a := by
  intro k a ha
  rw [Entries.get?_set] at ha
  split at ha
  · rename_i hk
    cases ha
    exact hk ▸ hx
  · exact h k a ha

/-- A function whose body has a property. -/
def Function.Over (R : Tree → Prop) (f : Function) : Prop := ∀ body, f.body = some body → R body

/-- A class with a name, whose trees have a property. -/
structure Class.Over (R : Tree → Prop) (scope name : String) (c : Class) : Prop where
  called : c.Called scope name
  methods : ∀ short f, c.methods.get? short = some f → f.Over R
  assignments : ∀ short t, c.assignments.get? short = some t → R t

/-- A module with a name, whose trees have a property. -/
structure Module.Over (R : Tree → Prop) (name : String) (isPackage : Bool) (m : Module) : Prop where
  name_eq : m.name = name
  isPackage_eq : m.isPackage = isPackage
  classes : ∀ short c, m.classes.get? short = some c → Lexer.isName short = true ∧ c.Over R name short
  functions : ∀ short f, m.functions.get? short = some f → f.Over R

section

variable {R : Tree → Prop} {scope name : String} {isPackage : Bool} {t : Tree}

mutual

theorem forall_mem_guarded (hR : ∀ {t c : Tree}, R t → c ∈ t.children → R c) {enters : Form → Bool} :
    (t : Tree) → R t → ∀ u ∈ guarded enters t, R u
  | .node form role span text children, ht => by
    unfold guarded
    split
    · split
      · exact forall_mem_guardedIn hR children fun c hc => hR ht hc
      · exact nofun
    · exact List.forall_mem_singleton.2 ht

theorem forall_mem_guardedIn (hR : ∀ {t c : Tree}, R t → c ∈ t.children → R c) {enters : Form → Bool} :
    (ts : List Tree) → (∀ t ∈ ts, R t) → ∀ u ∈ guardedIn enters ts, R u
  | [], _ => nofun
  | t :: ts, h => by
    obtain ⟨ht, hts⟩ := List.forall_mem_cons.1 h
    exact List.forall_mem_append.2 ⟨forall_mem_guarded hR t ht, forall_mem_guardedIn hR ts hts⟩

end

variable (hR : ∀ {t c : Tree}, R t → c ∈ t.children → R c)

include hR

theorem over_undecorated (ht : R t) : Yields (fun found => ∀ d, found.1 = some d → R d) (undecorated t) := by
  unfold undecorated
  split
  · exact .bind (.any _) fun _ _ => .pure fun d hd => hR ht (List.mem_of_find?_eq_some hd)
  · exact .pure fun d hd => Option.some.inj hd ▸ ht

theorem over_withAssignment (hc : c.Over R scope name) (ht : R t) :
    Yields (Class.Over R scope name) (c.withAssignment t) := by
  unfold Class.withAssignment
  split
  · split
    · exact .pure hc
    · split
      · rename_i hright
        exact .pure { hc with assignments := forall_get?_set hc.assignments (hR ht (List.mem_of_find?_eq_some hright)) }
      · exact .pure hc
      · exact .pure { hc with }
      · exact .bind (.any _) fun _ _ => .bind (.any _) fun _ _ => .pure { hc with }
  · exact .pure hc

theorem over_withStatement (hc : c.Over R scope name) (ht : R t) :
    Yields (Class.Over R scope name) (c.withStatement t) := by
  unfold Class.withStatement
  split
  · exact .foldlM (fun _ t' ht' hc => over_withAssignment hR hc (hR ht (List.mem_filter.1 ht').1)) hc
  · refine .bind (over_undecorated hR ht) fun found hfound => ?_
    split
    · split
      · refine .pure ⟨hc.called, forall_get?_set hc.methods fun body hbody => ?_, hc.assignments⟩
        exact hR (hfound _ rfl) (List.mem_of_find?_eq_some hbody)
      · exact .pure hc
    · exact .pure hc

theorem over_classOf (ht : R t) (decorators : List Call) :
    Yields (Class.Over R scope (t.childText .name)) (classOf t decorators scope) := by
  refine .foldlM (fun _ s hs hc => over_withStatement hR hc ?_) ⟨⟨rfl, rfl⟩, nofun, nofun⟩
  cases hbody : t.child? .body with
  | none =>
    rw [hbody] at hs
    cases hs
  | some body =>
    rw [hbody] at hs
    exact hR (hR ht (List.mem_of_find?_eq_some hbody)) hs

/-- A class is set under its name, and only if it has one. -/
theorem over_withDefinition (hm : m.Over R name isPackage) (ht : R t) :
    Yields (Module.Over R name isPackage) (m.withDefinition t) := by
  unfold Module.withDefinition
  refine .bind (over_undecorated hR ht) fun found hfound => ?_
  split
  · have hdefinition := hfound _ rfl
    split
    · exact .pure hm
    · rename_i hname
      split
      · refine .bind (over_classOf hR hdefinition _) fun c hc => .pure ⟨hm.name_eq, hm.isPackage_eq, ?_, hm.functions⟩
        refine forall_get?_set hm.classes ?_
        rw [hc.called.1, ← hm.name_eq]
        exact ⟨by simpa using hname, hc⟩
      · split
        · refine .pure ⟨hm.name_eq, hm.isPackage_eq, hm.classes, forall_get?_set hm.functions fun body hbody => ?_⟩
          exact hR hdefinition (List.mem_of_find?_eq_some hbody)
        · exact .pure hm
  · exact .pure hm

theorem over_withItem (hm : m.Over R name isPackage) (ht : R t) :
    Yields (Module.Over R name isPackage) (m.withItem t) := by
  unfold Module.withItem
  split
  · exact .pure ⟨hm.name_eq, hm.isPackage_eq, hm.classes, hm.functions⟩
  · exact .pure ⟨hm.name_eq, hm.isPackage_eq, hm.classes, hm.functions⟩
  · exact over_withDefinition hR hm ht

/-- The module of a text goes by the name that the text was read for, and its trees have what those of the text have. -/
theorem over_readModule {bytes : List Nat} (h : ∀ t ∈ (parse (ofBytes bytes)).statements, R t) (allowPartial : Bool) :
    Yields (Module.Over R name isPackage) (readModule bytes name isPackage allowPartial) := by
  unfold readModule
  split
  · exact .throw
  · dsimp only
    split
    · exact .throw
    · rw [withStatements_eq]
      refine .mapError (.foldlM (fun _ t ht hm => over_withItem hR hm ?_) ⟨rfl, rfl, ?_, ?_⟩) _
      · exact forall_mem_guardedIn hR _ h t ht
      · exact nofun
      · exact nofun

end

theorem plain_readModule (bytes : List Nat) (name : String) (isPackage allowPartial : Bool) :
    Yields (Module.Over (fun _ => True) name isPackage) (readModule bytes name isPackage allowPartial) :=
  over_readModule (fun _ _ => trivial) (fun _ _ => trivial) allowPartial

theorem named_readModule (bytes : List Nat) (name : String) (isPackage allowPartial : Bool) :
    Yields (Module.Named name) (readModule bytes name isPackage allowPartial) := by
  intro m hm
  have hover := plain_readModule bytes name isPackage allowPartial m hm
  exact ⟨hover.name_eq, fun short c hc => (hover.classes short c hc).imp_right (·.called)⟩

end Source

/-! ## Sound libraries -/

/-- Every module that can be loaded is one of the library, and goes by the name that it is loaded by. -/
structure Library.Sound (r : Library) : Prop where
  has : ∀ name m, result (loadModule name) r = .ok m → r.hasModule name = true
  named : ∀ name m, result (loadModule name) r = .ok m → m.Named name

/-- What a library holds was read for the place where it is held. -/
structure Library.Stocked (l : Library) : Prop where
  texts : ∀ name o, l.texts.get? name = some o → Yields (Module.Named name) o
  folder : ∀ path file, l.folder.get? path = some file → Yields (Module.Named (moduleNameOf path)) file.outcome
  index : ∀ name path, l.index.get? name = some path → moduleNameOf path = name
  cache : ∀ name m, l.cache.modules.get? name = some m → l.hasModule name = true ∧ m.Named name

namespace Library.Stocked

variable {l : Library}

theorem readSource {m : Source.Module} (hl : l.Stocked) (h : result (readSource l name) l = .ok m) :
    l.hasModule name = true ∧ m.Named name := by
  unfold ApiSchema.readSource at h
  unfold hasModule Entries.has
  split at h
  · rename_i o ho
    refine ⟨by rw [ho]; rfl, hl.texts name o ho m (recordOutcome_ok h)⟩
  · rename_i path _ hpath
    obtain ⟨file, hfile, ho⟩ := readFile_ok h
    refine ⟨by rw [hpath]; exact Bool.or_true _, ?_⟩
    rw [← hl.index name path hpath]
    exact hl.folder path file hfile m ho
  · cases h

theorem sound (hl : l.Stocked) : l.Sound := by
  have hboth : ∀ name m, result (loadModule name) l = .ok m → l.hasModule name = true ∧ m.Named name := by
    intro name m hm
    rw [result_loadModule] at hm
    split at hm
    · rename_i m' hm'
      cases hm
      exact hl.cache name m hm'
    · exact hl.readSource hm
  exact ⟨fun name m hm => (hboth name m hm).1, fun name m hm => (hboth name m hm).2⟩

theorem writeFile (hl : l.Stocked) (path text : String) : (l.writeFile path text).Stocked where
  texts := hl.texts
  folder place file hfile := by
    unfold Library.writeFile at hfile
    dsimp only at hfile
    rw [Entries.get?_set] at hfile
    split at hfile
    · rename_i hplace
      cases hfile
      rw [← hplace]
      exact named_readModule _ _ _ _
    · exact hl.folder place file hfile
  index := hl.index
  cache := hl.cache

theorem indexFolder (hl : l.Stocked) : l.indexFolder.Stocked := by
  refine List.foldlRecOn (motive := Library.Stocked) _ _ hl fun l hl parts _ => ?_
  dsimp only
  split
  · exact hl
  · refine ⟨hl.texts, hl.folder, fun name path hpath => ?_, fun name m hm => ⟨?_, (hl.cache name m hm).2⟩⟩
    · dsimp only at hpath
      rw [Entries.get?_set] at hpath
      split at hpath
      · rename_i hname
        cases hpath
        exact hname
      · exact hl.index name path hpath
    · have hhas := (hl.cache name m hm).1
      unfold hasModule Entries.has at hhas ⊢
      dsimp only
      rw [Entries.get?_set]
      split
      · exact Bool.or_true _
      · exact hhas

/-- A new text drops the module that was loaded for its name. -/
theorem addText (hl : l.Stocked) (path text : String) : (l.addText path text).Stocked where
  texts name o ho := by
    unfold Library.addText at ho
    dsimp only at ho
    rw [Entries.get?_set] at ho
    split at ho
    · rename_i hname
      cases ho
      rw [← hname]
      exact named_readModule _ _ _ _
    · exact hl.texts name o ho
  folder := hl.folder
  index := hl.index
  cache name m hm := by
    have hold : l.cache.modules.get? name = some m := by
      change (l.cache.invalidate (moduleNameOf path)).modules.get? name = some m at hm
      unfold Cache.invalidate at hm
      split at hm
      · dsimp only at hm
        rw [Entries.get?_erase] at hm
        split at hm
        · cases hm
        · exact hm
      · exact hm
    refine ⟨?_, (hl.cache name m hold).2⟩
    have hhas := (hl.cache name m hold).1
    unfold hasModule Entries.has Library.addText at *
    dsimp only
    rw [Entries.get?_set]
    split
    · rfl
    · exact hhas

end Library.Stocked

theorem indexFolder_of_empty {l : Library} (h : l.folder = []) : l.indexFolder = l := by
  simp [Library.indexFolder, Library.modulePaths, h, Entries.keys]

/-- Whatever a library is opened over, it holds everything in its place. -/
theorem stocked_openLibrary (s : Settings) (root : String) (files texts : Entries String) :
    (Infer.openLibrary s root files texts).Stocked := by
  refine List.foldlRecOn (motive := Library.Stocked) _ _ ?_ fun l hl e _ => hl.addText e.1 e.2
  refine Library.Stocked.indexFolder
    (List.foldlRecOn (motive := Library.Stocked) _ _ ?_ fun l hl e _ => hl.writeFile e.1 e.2)
  exact ⟨nofun, nofun, nofun, nofun⟩

/-- A library is sound whatever it is opened over. -/
theorem sound_openLibrary (s : Settings) (root : String) (files texts : Entries String) :
    (Infer.openLibrary s root files texts).Sound := (stocked_openLibrary s root files texts).sound

/-- A library of nothing but texts, by their outcomes. -/
def Library.ofTexts (texts : Entries (Except ReadError Source.Module)) : Library := { texts }

theorem stocked_ofTexts
    (h : (texts.all fun e => e.2.toOption.all (·.isNamed e.1)) = true) : (Library.ofTexts texts).Stocked := by
  refine ⟨fun name o ho m hm => named_of_isNamed ?_, nofun, nofun, nofun⟩
  have hentry := List.all_eq_true.1 h (name, o) (Entries.mem_of_get? ho)
  rw [hm] at hentry
  exact hentry

theorem sound_ofTexts
    (h : (texts.all fun e => e.2.toOption.all (·.isNamed e.1)) = true) : (Library.ofTexts texts).Sound :=
  (stocked_ofTexts h).sound

/-! ## Qualified names -/

namespace Library.Sound

variable {r r' : Library} {home short : String} {m : Source.Module}

theorem alike (hr : r.Sound) (h : Alike r r') : r'.Sound where
  has name m hm := (h.has name).trans (hr.has name m ((h.outcome name).symm.trans hm))
  named name m hm := hr.named name m ((h.outcome name).symm.trans hm)

/-- The qualified name of a class is placed in its module: no start of it that is a module is longer. -/
theorem placed (hr : r.Sound) (hm : result (loadModule home) r = .ok m) (hhome : home.isEmpty = false)
    (hshort : Lexer.isName short = true) : Placed r (qualify home short) m [short] := by
  refine ⟨?_, hm⟩
  have hscope : scopeParts home ≠ [] := by
    intro hnil
    rw [← join_scopeParts home, hnil] at hhome
    cases hhome
  have hfirst : ((List.range (scopeParts home ++ [short]).length).reverse.filter (0 < ·)) =
      (scopeParts home).length :: (List.range (scopeParts home).length).reverse.filter (0 < ·) := by
    rw [List.length_append, List.length_singleton, List.range_succ, List.reverse_append, List.reverse_singleton,
      List.singleton_append, List.filter_cons_of_pos (by simpa [List.length_pos_iff] using hscope)]
  unfold splitName?
  dsimp only
  rw [split_qualify (dot_not_mem_of_isName hshort), hfirst, List.findSome?_cons, List.take_left, List.drop_left,
    join_scopeParts,
    hr.has home m hm]
  rfl

end Library.Sound

theorem Found.named (hr : r.Sound) (ha : Found r a) :
    result (loadModule a.module.name) r = .ok a.module ∧ a.module.classes.get? a.cls.name = some a.cls ∧
      Lexer.isName a.cls.name = true ∧ a.cls.qualifiedName = qualify a.module.name a.cls.name := by
  obtain ⟨name, short, hm, hc⟩ := ha
  obtain ⟨rfl, hclasses⟩ := hr.named name a.module hm
  obtain ⟨hname, rfl, hqualified⟩ := hclasses short a.cls hc
  exact ⟨hm, hc, hname, hqualified⟩

/-- The key under which the schema of a class is kept. -/
def Located.key (d : Located) (direction : Direction) : String := schemaKey d.cls.qualifiedName direction

theorem schemaKey_qualify (home short : String) (direction : Direction) :
    schemaKey (qualify home short) direction = qualify home (schemaKey short direction) := by
  cases direction with
  | output => rfl
  | input =>
    change qualify home short ++ "#input" = qualify home (short ++ "#input")
    unfold qualify
    split
    · rfl
    · exact String.append_assoc

theorem schemaKey_inj {s t : String} (hs : '#' ∉ s.toList) (ht : '#' ∉ t.toList)
    (h : schemaKey s i = schemaKey t j) : s = t ∧ i = j := by
  have hmark : ∀ u : String, '#' ∈ (u ++ "#input").toList := fun u => by
    rw [String.toList_append]
    exact List.mem_append_right _ (by decide)
  cases i with
  | output =>
    replace h : s = schemaKey t j := h
    cases j with
    | output => exact ⟨h, rfl⟩
    | input => exact absurd (h ▸ hmark t) hs
  | input =>
    replace h : s ++ "#input" = schemaKey t j := h
    cases j with
    | output =>
      replace h : s ++ "#input" = t := h
      exact absurd (h ▸ hmark s) ht
    | input =>
      have hlists := congrArg String.toList h
      rw [schemaKey, String.toList_append, String.toList_append] at hlists
      exact ⟨String.toList_inj.1 (List.append_cancel_right hlists), rfl⟩

/-- A class of a sound library is known by the key under which its schema is kept. -/
theorem Found.eq_of_key (hr : r.Sound) (ha : Found r a)
    (hb : Found r b) (h : a.key i = b.key j) : a = b ∧ i = j := by
  have hdot : ∀ {s : String} (k : Direction), Lexer.isName s = true → '.' ∉ (schemaKey s k).toList := by
    intro s k hs
    cases k with
    | output => exact dot_not_mem_of_isName hs
    | input =>
      rw [schemaKey, String.toList_append, List.mem_append, not_or]
      exact ⟨dot_not_mem_of_isName hs, by decide⟩
  obtain ⟨hma, hca, hna, hqa⟩ := ha.named hr
  obtain ⟨hmb, hcb, hnb, hqb⟩ := hb.named hr
  rw [Located.key, Located.key, hqa, hqb, schemaKey_qualify, schemaKey_qualify] at h
  obtain ⟨hhome, hkey⟩ := qualify_inj (hdot i hna) (hdot j hnb) h
  obtain ⟨hname, hij⟩ := schemaKey_inj (sharp_not_mem_of_isName hna) (sharp_not_mem_of_isName hnb) hkey
  obtain ⟨ma, ca⟩ := a
  obtain ⟨mb, cb⟩ := b
  dsimp only at *
  rw [hhome] at hma
  obtain rfl : ma = mb := Except.ok.inj (hma.symm.trans hmb)
  rw [hname] at hca
  exact ⟨by rw [Option.some.inj (hca.symm.trans hcb)], hij⟩

theorem Found.eq_of_qualifiedName (hr : r.Sound) (ha : Found r a) (hb : Found r b)
    (h : a.cls.qualifiedName = b.cls.qualifiedName) : a = b :=
  (ha.eq_of_key hr hb (i := .output) (j := .output) h).1

end ApiSchema
