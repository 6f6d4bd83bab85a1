import Mathlib.Data.List.Find
import ApiSchema.Proofs.Entries
import ApiSchema.Proofs.Faults
import ApiSchema.Proofs.Hierarchies
import ApiSchema.Proofs.Truncation

/-!
# Fields that are declared again

A class may declare a field again that an ancestor declares. Without decorators, docstrings and name styles, the fields
of a chain are the nearest declarations of their output names (`Field.mem_ofDeclarations_iff`). So a field takes the
place of an inherited one if their output names are the same. It takes the place of all of its name under the conditions
of `Field.Redeclares`, and is the one that the order of the ancestors tells as far as the chain is that order
(`Infer.declaredFields_redeclared_iff`).
-/
namespace ApiSchema

open Ancestry

variable {d : Field.Declared} {o : Field.Origin} {m : Source.Module} {chain : List Field.Link}

namespace Field

variable {ds : List Declared} {direction : Direction}

/-! ## Declarations of one origin -/

/-- The declarations under their output names. -/
def keyed (ds : List Declared) : Entries Declared := ds.map fun d => (d.outputName, d)

/-- The first declaration of an output name. -/
def nearest? (ds : List Declared) (key : String) : Option Declared := ds.find? (·.outputName == key)

/-- The fields of declarations of one origin, the nearest of which come first. -/
def ofDeclarations (ds : List Declared) : List Declared := (Entries.ofPairs (keyed ds).reverse).values

theorem withDeclared_of_origin {merged : Entries Declared} (hd : d.origin = o)
    (hmerged : ∀ e ∈ merged.values, e.origin = o) : withDeclared true merged d = merged.set d.outputName d := by
  unfold withDeclared
  split
  · rfl
  · rename_i current hcurrent
    have horigin : current.origin = d.origin := (hmerged current (Entries.mem_values hcurrent)).trans hd.symm
    rw [if_pos (beq_iff_eq.2 horigin), if_pos rfl]

theorem foldl_withDeclared_of_origin {merged : Entries Declared} (hds : ∀ d ∈ ds, d.origin = o)
    (hmerged : ∀ e ∈ merged.values, e.origin = o) : ds.foldl (withDeclared true) merged = merged.setAll (keyed ds) := by
  induction ds generalizing merged with
  | nil => rfl
  | cons d ds ih =>
    obtain ⟨hd, hds⟩ := List.forall_mem_cons.1 hds
    rw [List.foldl_cons, withDeclared_of_origin hd hmerged]
    refine ih hds fun e he => ?_
    obtain ⟨p, hp, rfl⟩ := List.mem_map.1 he
    rcases Entries.mem_set hp with rfl | hp
    · exact hd
    · exact hmerged p.2 (List.mem_map_of_mem hp)

theorem merge_of_origin (h : ∀ d ∈ ds, d.origin = o) : merge [] ds.reverse [] = ofDeclarations ds := by
  have hnone : ∀ e ∈ Entries.values ([] : Entries Declared), e.origin = o := fun _ he => absurd he List.not_mem_nil
  have hfold := foldl_withDeclared_of_origin (fun d hd => h d (List.mem_reverse.1 hd)) hnone
  have hkeyed : keyed ds.reverse = (keyed ds).reverse := List.map_reverse
  rw [ofDeclarations, Entries.ofPairs, ← hkeyed, ← hfold]
  rfl

theorem get?_keyed (ds : List Declared) (k : String) : Entries.get? (keyed ds) k = nearest? ds k := by
  induction ds with
  | nil => rfl
  | cons d ds ih =>
    change (if d.outputName == k then some d else Entries.get? (keyed ds) k) = _
    rw [ih, nearest?, nearest?, List.find?_cons]
    cases d.outputName == k <;> rfl

theorem get?_ofPairs_keyed (ds : List Declared) (k : String) :
    Entries.get? (Entries.ofPairs (keyed ds).reverse) k = nearest? ds k := by
  rw [Entries.get?_ofPairs, Entries.last?, List.reverse_reverse, get?_keyed]

theorem outputName_of_nearest? {k : String} (h : nearest? ds k = some d) : d.outputName = k := by
  simpa using List.find?_some h

theorem exists_nearest? (h : d ∈ ds) : ∃ e, nearest? ds d.outputName = some e :=
  Option.isSome_iff_exists.1 (List.find?_isSome.2 ⟨d, h, BEq.rfl⟩)

theorem nearest?_of_mem {p : String × Declared} (h : p ∈ Entries.ofPairs (keyed ds).reverse) :
    nearest? ds p.1 = some p.2 := by
  rw [← get?_ofPairs_keyed]
  exact Entries.get?_of_mem (Entries.nodup_keys_ofPairs _) h

theorem mem_ofDeclarations_iff : d ∈ ofDeclarations ds ↔ nearest? ds d.outputName = some d := by
  constructor
  · intro h
    obtain ⟨p, hp, rfl⟩ := List.mem_map.1 h
    have hp := nearest?_of_mem hp
    rw [outputName_of_nearest? hp]
    exact hp
  · intro h
    rw [← get?_ofPairs_keyed] at h
    exact Entries.mem_values h

theorem nodup_ofDeclarations (ds : List Declared) : ((ofDeclarations ds).map Declared.outputName).Nodup := by
  have hkeys : (ofDeclarations ds).map Declared.outputName = Entries.keys (Entries.ofPairs (keyed ds).reverse) := by
    rw [ofDeclarations, Entries.values, List.map_map]
    exact List.map_congr_left fun p hp => outputName_of_nearest? (nearest?_of_mem hp)
  rw [hkeys]
  exact Entries.nodup_keys_ofPairs _

/-- A declaration takes the place of all others of its name: it is the nearest one of its output name, and where the
others have another output name, there is a nearer declaration of that with another name. -/
structure Redeclares (ds : List Declared) (w : Declared) : Prop where
  nearest : nearest? ds w.outputName = some w
  hidden : ∀ d ∈ ds, d.name = w.name → d.outputName ≠ w.outputName →
    ∃ e, nearest? ds d.outputName = some e ∧ e.name ≠ w.name

/-- A declaration is the one field of its name if and only if it takes the place of all others. -/
theorem filter_ofDeclarations_iff {w : Declared} :
    (ofDeclarations ds).filter (·.name == w.name) = [w] ↔ Redeclares ds w := by
  constructor
  · intro h
    have hiff : ∀ d, d = w ↔ nearest? ds d.outputName = some d ∧ d.name = w.name := by
      intro d
      rw [← mem_ofDeclarations_iff, ← List.mem_singleton, ← h, List.mem_filter, beq_iff_eq]
    refine ⟨((hiff w).1 rfl).1, fun d hd hname hne => ?_⟩
    -- A nearest declaration `e` with the name of `w` would be a second field of that name.
    obtain ⟨e, he⟩ := exists_nearest? hd
    have hout := outputName_of_nearest? he
    refine ⟨e, he, fun hename => hne ?_⟩
    rw [← hout, (hiff e).2 ⟨hout.symm ▸ he, hename⟩]
  · intro h
    have hmem : w ∈ (ofDeclarations ds).filter (·.name == w.name) :=
      List.mem_filter.2 ⟨mem_ofDeclarations_iff.2 h.nearest, BEq.rfl⟩
    have hall : ∀ d ∈ (ofDeclarations ds).filter (·.name == w.name), d = w := by
      intro d hd
      obtain ⟨hd, hname⟩ := List.mem_filter.1 hd
      have hd := mem_ofDeclarations_iff.1 hd
      by_cases hout : d.outputName = w.outputName
      · rw [hout] at hd
        exact Option.some.inj (hd.symm.trans h.nearest)
      · obtain ⟨e, he, hne⟩ := h.hidden d (List.mem_of_find?_eq_some hd) (beq_iff_eq.1 hname) hout
        cases hd.symm.trans he
        exact absurd (beq_iff_eq.1 hname) hne
    have hnodup : ((ofDeclarations ds).filter (·.name == w.name)).Nodup :=
      ((nodup_ofDeclarations ds).of_map _).filter _
    exact List.perm_singleton.1 ((List.perm_ext_iff_of_nodup hnodup (List.nodup_singleton w)).2 fun d =>
      ⟨fun hd => List.mem_singleton.2 (hall d hd), fun hd => List.mem_singleton.1 hd ▸ hmem⟩)

/-- A declaration whose output name is that of its name alone takes the place of all others, if it is the nearest. -/
theorem Redeclares.of_own {w : Declared} (hw : ds.find? (·.name == w.name) = some w)
    (hown : ∀ d ∈ ds, d.name = w.name ↔ d.outputName = w.outputName) : Redeclares ds w where
  nearest := by
    rw [nearest?, ← hw]
    refine List.find?_congr fun d hd => ?_
    rw [Bool.eq_iff_iff, beq_iff_eq, beq_iff_eq]
    exact (hown d hd).symm
  hidden d hd hname hne := absurd ((hown d hd).1 hname) hne

/-! ## Chains of unadorned classes -/

/-- A class with annotated declarations only, which keep their names if they have no alias. -/
structure Unadorned (c : Source.Class) : Prop where
  decorators : c.decorators = []
  docstring : c.docstring = none
  style : styleOfClass? c = .ok none

/-- The annotated declarations of some classes, the last one of the first class first. -/
def declarations (direction : Direction) (chain : List Link) : List Declared :=
  chain.flatMap fun l => (ofClass direction none l).reverse

theorem styleOf_unadorned (h : ∀ l ∈ chain, Unadorned l.cls) : styleOf chain = .ok none := by
  induction chain with
  | nil => rfl
  | cons l chain ih =>
    obtain ⟨hl, hchain⟩ := List.forall_mem_cons.1 h
    rw [styleOf, hl.style]
    exact ih hchain

theorem ofChain_unadorned (h : ∀ l ∈ chain, Unadorned l.cls) :
    ofChain direction chain = .ok (ofDeclarations (declarations direction chain)) := by
  have hdecorated : ∀ style,
      (chain.flatMap fun l => (ofDecorators direction l.scope l.cls.decorators).map (restyled style)) = [] := by
    intro style
    refine List.flatMap_eq_nil_iff.2 fun l hl => ?_
    rw [(h l hl).decorators]
    rfl
  have hdocumented : (chain.flatMap fun l =>
      (inDocstring (l.cls.docstring.getD "")).map fun d => { restyled none d with scope := some l.scope }) = [] := by
    refine List.flatMap_eq_nil_iff.2 fun l hl => ?_
    rw [(h l hl).docstring]
    rfl
  have htyped : chain.reverse.flatMap (ofClass direction none) = (declarations direction chain).reverse := by
    simp [declarations, List.reverse_flatMap, Function.comp_def]
  have horigin : ∀ d ∈ declarations direction chain, d.origin = .typed := by
    intro d hd
    obtain ⟨l, -, hd⟩ := List.mem_flatMap.1 hd
    obtain ⟨f, -, rfl⟩ := List.mem_map.1 (List.mem_reverse.1 hd)
    rfl
  have hnone : chain.flatMap (·.cls.decorators) = [] := List.flatMap_eq_nil_iff.2 fun l hl => (h l hl).decorators
  unfold ofChain
  rw [styleOf_unadorned h, hnone]
  change Except.ok (merge _ _ _) = _
  rw [hdecorated, htyped, hdocumented, merge_of_origin horigin]

theorem not_mem_configurationNames (h : d ∈ declarations direction chain) :
    d.name ∉ configurationNames := by
  obtain ⟨l, -, hd⟩ := List.mem_flatMap.1 h
  obtain ⟨f, hf, rfl⟩ := List.mem_map.1 (List.mem_reverse.1 hd)
  have hdata : isDataField f = true := (List.mem_filter.1 hf).2
  simp only [isDataField, Bool.and_eq_true, Bool.not_eq_true'] at hdata
  exact fun hmem => Bool.false_ne_true (hdata.1.2.symm.trans (List.contains_iff_mem.2 hmem))

end Field

namespace Infer

open ApiSchema.Field

variable {r : Library} {a : Located} {direction : Direction}

/-! ## Modules of unadorned classes -/

/-- A class of the module `m`: its name, its bases, and its fields with their types, each of which may have an alias. -/
structure Heir where
  name : String
  bases : List String
  fields : List (String × String × Option String)

def Heir.cls (c : Heir) : Source.Class :=
  { recordOf c.name [] with
    bases := c.bases
    fields := c.fields.map fun (name, typeText, alias?) =>
      { name, typeText, line := 1, call := alias?.map fun a => ⟨"Field", [], [("alias", .str a)]⟩ } }

def moduleOfHeirs (cs : List Heir) : Source.Module := moduleOf (cs.map Heir.cls)

/-- The classes of a module. -/
def members (m : Source.Module) : List Located := m.classes.values.map (⟨m, ·⟩)

/-- The class of a module by its short name. -/
def member (m : Source.Module) (short : String) : Located := ⟨m, (m.classes.get? short).getD (recordOf short [])⟩

theorem unadorned_of_mem {cs : List Heir} {a : Located} (ha : a ∈ members (moduleOfHeirs cs)) : Unadorned a.cls := by
  obtain ⟨c, hc, rfl⟩ := List.mem_map.1 ha
  obtain ⟨e, he, rfl⟩ := List.mem_map.1 hc
  obtain ⟨_, hcls, rfl⟩ := List.mem_map.1 he
  obtain ⟨heir, -, rfl⟩ := List.mem_map.1 hcls
  exact ⟨rfl, rfl, rfl⟩

theorem member_mem {short : String} (h : m.classes.has short = true) : member m short ∈ members m := by
  obtain ⟨c, hc⟩ := Option.isSome_iff_exists.1 h
  rw [member, hc]
  exact List.mem_map.2 ⟨c, Entries.mem_values hc, rfl⟩

theorem mem_members_of_found {a : Located} (ha : Found (libraryOf m true) a) : a ∈ members m := by
  obtain ⟨name, short, hm, hc⟩ := ha
  have hmodule : a.module = m := by
    simpa [Library.modules, libraryOf, outcomeModules, Entries.values] using mem_modules hm
  rw [hmodule] at hc
  refine List.mem_map.2 ⟨a.cls, Entries.mem_values hc, ?_⟩
  rw [← hmodule]

theorem result_loadModule_libraryOf (m : Source.Module) : result (loadModule m.name) (libraryOf m true) = .ok m := by
  have htext : Entries.get? (libraryOf m true).texts m.name = some (.ok m) := if_pos (beq_self_eq_true m.name)
  rw [result_loadModule, readSource, htext]
  rfl

theorem absorbed_of_loadModule {name : String} {p : Problem}
    (h : result (loadModule name) (libraryOf m true) = .error p) : p.isAbsorbed = true := by
  by_cases hname : m.name = name
  · rw [← hname, result_loadModule_libraryOf] at h
    cases h
  · have htext : Entries.get? (libraryOf m true).texts name = none := if_neg (by simpa using hname)
    rw [result_loadModule, readSource, htext] at h
    cases h
    rfl

theorem exists_newParents (m : Source.Module) (a : Located) :
    ∃ ps, result (newParents [] a) (libraryOf m true) = .ok ps := by
  cases hps : result (newParents [] a) (libraryOf m true) with
  | ok ps => exact ⟨ps, rfl⟩
  | error p =>
    obtain ⟨hfirm, name, hname⟩ := (Firm.newParents [] a).unloaded (.newParents [] a) hps
    exact absurd (hfirm.symm.trans (absorbed_of_loadModule hname)) Bool.false_ne_true

/-- The classes of a module that is a library by itself are a hierarchy. -/
def wholeOf (m : Source.Module) (hkeys : (Entries.keys m.classes).Nodup)
    (hnames : ((members m).map Located.qualifiedName).Nodup) : Hierarchy (libraryOf m true) where
  classes := members m
  distinct := hnames
  found a ha := by
    obtain ⟨c, hc, rfl⟩ := List.mem_map.1 ha
    obtain ⟨⟨short, _⟩, he, rfl⟩ := List.mem_map.1 hc
    exact ⟨m.name, short, result_loadModule_libraryOf m, Entries.get?_of_mem hkeys he⟩
  closed a _ := by
    obtain ⟨ps, hps⟩ := exists_newParents m a
    have hparents : parentsIn (libraryOf m true) a = ps := by
      rw [parentsIn, hps]
      rfl
    rw [hparents]
    exact ⟨hps, fun p hp => mem_members_of_found ((gives_newParents _ [] a _ (.refl _) ps hps).2 p hp)⟩

theorem isOrder_members {m : Source.Module} {h : Hierarchy (libraryOf m true)} (hclasses : h.classes = members m)
    {short : String} {shorts : List String} (hshorts : ∀ s ∈ shorts, m.classes.has s = true) {n : Nat}
    (hn : linearize h.parents n (member m short).qualifiedName = some
      ((shorts.map (member m)).map Located.qualifiedName)) :
    h.IsOrder (member m short) (shorts.map (member m)) := by
  refine ⟨fun a ha => ?_, n, hn⟩
  obtain ⟨s, hs, rfl⟩ := List.mem_map.1 ha
  rw [hclasses]
  exact member_mem (hshorts s hs)

/-- Of the two bases of `D` one has a base of its own, a field of which it declares again. -/
def forked : Source.Module := moduleOfHeirs [⟨"A", [], [("x", "int", none), ("y", "int", none)]⟩,
  ⟨"B", ["A"], [("x", "str", none)]⟩, ⟨"C", [], [("y", "str", none)]⟩, ⟨"D", ["B", "C"], [("z", "int", none)]⟩]

def forkedClasses : Hierarchy (libraryOf forked true) :=
  wholeOf forked (by decide) (by decide)

/-- The types of the fields of a class that have a name. -/
def typesOf (m : Source.Module) (short name : String) : Option (List (Option String)) :=
  (result (declaredFields .output (.cls (member m short))) (libraryOf m true)).toOption.map fun ds =>
    (ds.filter (·.name == name)).map (·.typeText)

/-- The field of `A` has an alias, and is declared again without it. -/
def aliased : Source.Module := moduleOfHeirs [⟨"A", [], [("x", "int", some "a")]⟩, ⟨"B", ["A"], [("x", "str", none)]⟩]

def aliasedClasses : Hierarchy (libraryOf aliased true) :=
  wholeOf aliased (by decide) (by decide)

/-- Both bases of `D` inherit from `A`, and the second one declares its field again. -/
def diamond : Source.Module := moduleOfHeirs [⟨"A", [], [("x", "int", none)]⟩, ⟨"B", ["A"], [("y", "int", none)]⟩,
  ⟨"C", ["A"], [("x", "str", none)]⟩, ⟨"D", ["B", "C"], [("z", "int", none)]⟩]

def diamondClasses : Hierarchy (libraryOf diamond true) :=
  wholeOf diamond (by decide) (by decide)

/-! ## Hierarchies of unadorned classes -/

/-- The fields of an unadorned class are the nearest declarations of its chain. -/
theorem result_declaredFields_unadorned {chain : List Located} (hchain : result (ancestorChain a) r = .ok chain)
    (hplain : ∀ b ∈ chain, Unadorned b.cls) : result (declaredFields direction (.cls a)) r =
      .ok (ofDeclarations (declarations direction (chain.map linkOf))) := by
  have hlinks : ∀ l ∈ chain.map linkOf, Unadorned l.cls := by
    intro l hl
    obtain ⟨b, hb, rfl⟩ := List.mem_map.1 hl
    exact hplain b hb
  rw [result_declaredFields_cls hchain, ofChain_unadorned hlinks]
  rfl

/-- In a hierarchy of unadorned classes the fields of a class are found. Its chain is the order of its ancestors if and
only if it is orderly. The nearest declaration of a name in that order is the one field of the name if and only if it
takes the place of all others in the chain; so it is one if the chain is the order and the name has an output name of
its own. No field has a name that configures the class. -/
theorem declaredFields_redeclared_iff (h : Hierarchy r) (hplain : ∀ b ∈ h.classes, Unadorned b.cls) (ha : a ∈ h.classes)
    (direction : Direction) {order : List Located} (horder : h.IsOrder a order) :
    ∃ chain fields, result (ancestorChain a) r = .ok chain ∧ result (declaredFields direction (.cls a)) r = .ok fields ∧
      (chain = order ↔ Orderly h.parents (chain.map Located.qualifiedName)) ∧
      (∀ name w, (declarations direction (order.map linkOf)).find? (·.name == name) = some w →
        (fields.filter (·.name == name) = [w] ↔ Redeclares (declarations direction (chain.map linkOf)) w) ∧
        (chain = order →
          (∀ d ∈ declarations direction (order.map linkOf), d.name = name ↔ d.outputName = w.outputName) →
          fields.filter (·.name == name) = [w])) ∧
      ∀ d ∈ fields, d.name ∉ configurationNames := by
  obtain ⟨chain, hchain, hmem, hwalk⟩ := h.exists_ancestorChain ha
  refine ⟨chain, _, hchain, result_declaredFields_unadorned hchain fun b hb => hplain b (hmem hb),
    h.chain_eq_iff hmem hwalk horder, fun name w hw => ?_, fun d hd => ?_⟩
  · obtain rfl : w.name = name := by simpa using List.find?_some hw
    refine ⟨filter_ofDeclarations_iff, ?_⟩
    rintro rfl hown
    exact filter_ofDeclarations_iff.2 (.of_own hw hown)
  · exact not_mem_configurationNames (List.mem_of_find?_eq_some (mem_ofDeclarations_iff.1 hd))

/-- The class `D` has the `x` of `B`. -/
theorem declaredFields_redeclared_forked :
    (∀ b ∈ forkedClasses.classes, Unadorned b.cls) ∧ member forked "D" ∈ forkedClasses.classes ∧
    forkedClasses.IsOrder (member forked "D") (["D", "B", "A", "C"].map (member forked)) ∧
    ∃ fields w, result (declaredFields .output (.cls (member forked "D"))) (libraryOf forked true) = .ok fields ∧
      fields.filter (·.name == "x") = [w] ∧ w.typeText = some "str" := by
  have hmem : member forked "D" ∈ forkedClasses.classes := member_mem (by decide +kernel)
  have hplain : ∀ b ∈ forkedClasses.classes, Unadorned b.cls := fun _ => unadorned_of_mem
  have horder : forkedClasses.IsOrder (member forked "D") (["D", "B", "A", "C"].map (member forked)) :=
    @isOrder_members _ forkedClasses rfl _ _ (by decide +kernel) 4 (by decide +kernel)
  refine ⟨hplain, hmem, horder, ?_⟩
  obtain ⟨chain, fields, hchain, hfields, hiff, hnames, -⟩ :=
    declaredFields_redeclared_iff forkedClasses hplain hmem .output horder
  have hchainNames : some (chain.map Located.qualifiedName) = some ["m.D", "m.B", "m.A", "m.C"] := by
    have heval : (result (ancestorChain (member forked "D")) (libraryOf forked true)).toOption.map
        (List.map Located.qualifiedName) = some ["m.D", "m.B", "m.A", "m.C"] := by decide +kernel
    rw [hchain] at heval
    exact heval
  have hsame := hiff.2 (by rw [Option.some.inj hchainNames]; decide +kernel)
  have hfind :
    (((declarations .output ((["D", "B", "A", "C"].map (member forked)).map linkOf)).find? (·.name == "x")).map
      fun w => (w.typeText, w.outputName)) = some (some "str", "x") := by decide +kernel
  obtain ⟨w, hw, htexts⟩ := Option.map_eq_some_iff.1 hfind
  obtain ⟨htype, hout⟩ := Prod.mk.inj htexts
  refine ⟨fields, w, hfields, (hnames "x" w hw).2 hsame ?_, htype⟩
  rw [hout]
  decide +kernel

/-- A field that is declared again under another output name is there twice. In a diamond the field of the common base
takes the place of the one that is declared again. -/
theorem redeclared_not_replaced :
    (aliasedClasses.IsOrder (member aliased "B") (["B", "A"].map (member aliased)) ∧
      typesOf aliased "B" "x" = some [some "int", some "str"]) ∧
    diamondClasses.IsOrder (member diamond "D") (["D", "B", "C", "A"].map (member diamond)) ∧
      (((declarations .output ((["D", "B", "C", "A"].map (member diamond)).map linkOf)).find? (·.name == "x")).bind
        Declared.typeText) = some "str" ∧ typesOf diamond "D" "x" = some [some "int"] := by
  refine ⟨⟨?_, by decide +kernel⟩, ?_, by decide +kernel, by decide +kernel⟩
  · exact @isOrder_members _ aliasedClasses rfl _ _ (by decide +kernel) 2 (by decide +kernel)
  · exact @isOrder_members _ diamondClasses rfl _ _ (by decide +kernel) 4 (by decide +kernel)

end Infer

end ApiSchema
