import ApiSchema.Proofs.Redeclared
import Mathlib.Data.List.Induction

/-!
# Which declaration of a field counts

A field may be declared by decorators, by annotations and in docstrings, along the whole chain of a class (`Tiers`). Of
the highest origin that declares it, the nearest declaration counts. If that has no description, it takes one of a lower
origin.

For an annotation that one is the nearest of the docstrings. For a decorator it is the farthest of the annotations,
since these are read from the farthest class on, and only then the nearest of the docstrings (`Tiers.nearest?_merge`).
So the fields are those that the order of the chain tells (`Tiers.field?`) if and only if the nearest and the farthest
annotation say the same wherever a decorator says nothing (`Infer.declaredFields_priority`,
`Infer.described_by_farthest`).
-/
namespace ApiSchema

namespace Field

/-! ## One output name -/

/-- The declarations of an output name. -/
def namesakes (ds : List Declared) (key : String) : List Declared := ds.filter (·.outputName == key)

/-- The first description that says something. -/
def description? (ds : List Declared) : Option Value := (ds.find? (·.isDescribed)).bind (·.description)

def Declared.withDescription (d : Declared) (v : Option Value) : Declared := { d with description := v }

/-- A declaration that says nothing takes the first description of some others. -/
def Declared.filledFrom (d : Declared) (ds : List Declared) : Declared :=
  if d.isDescribed then d else d.withDescription ((description? ds).or d.description)

/-- What one more declaration makes of the field of its output name. -/
def joined (replaces : Bool) (current : Option Declared) (d : Declared) : Declared :=
  current.elim d fun c =>
    if c.origin == d.origin then if replaces then d else c
    else if !c.isDescribed && d.isDescribed then c.withDescription d.description
    else c

section

variable {ds es : List Declared} {c d : Declared} {key : String} {o : Origin} {merged : Entries Declared}
  {replaces : Bool}

theorem namesakes_append (ds es : List Declared) (key : String) :
    namesakes (ds ++ es) key = namesakes ds key ++ namesakes es key := List.filter_append ..

theorem namesakes_reverse (ds : List Declared) (key : String) :
    namesakes ds.reverse key = (namesakes ds key).reverse := List.filter_reverse ..

theorem head?_namesakes (ds : List Declared) (key : String) : (namesakes ds key).head? = nearest? ds key :=
  List.head?_filter ..

theorem exists_of_isDescribed (h : d.isDescribed = true) : ∃ v, d.description = some v := by
  cases hv : d.description with
  | none => simp [Declared.isDescribed, hv] at h
  | some v => exact ⟨v, rfl⟩

theorem truthy_of_description? {v : Value} (h : description? ds = some v) : v.truthy = true := by
  obtain ⟨d, hd, hv⟩ := Option.bind_eq_some_iff.1 h
  have hdescribed : d.isDescribed = true := List.find?_some hd
  rwa [Declared.isDescribed, hv] at hdescribed

theorem description?_cons (d : Declared) (ds : List Declared) :
    description? (d :: ds) = if d.isDescribed then d.description else description? ds := by
  unfold description?
  rw [List.find?_cons]
  cases d.isDescribed <;> rfl

theorem description?_append (ds es : List Declared) :
    description? (ds ++ es) = (description? ds).or (description? es) := by
  induction ds with
  | nil => rfl
  | cons d ds ih =>
    rw [List.cons_append, description?_cons, description?_cons, ih]
    split
    · rename_i hd
      obtain ⟨v, hv⟩ := exists_of_isDescribed hd
      rw [hv]
      rfl
    · rfl

theorem description?_eq_none_iff : description? ds = none ↔ ∀ d ∈ ds, d.isDescribed = false := by
  induction ds with
  | nil => simp [description?]
  | cons d ds ih =>
    rw [description?_cons, List.forall_mem_cons, ← ih]
    cases hd : d.isDescribed with
    | true =>
      obtain ⟨v, hv⟩ := exists_of_isDescribed hd
      simp [hv]
    | false => simp

theorem description?_reverse_eq_none_iff : description? ds.reverse = none ↔ description? ds = none := by
  simp [description?_eq_none_iff]

theorem get?_withDeclared (replaces : Bool) (merged : Entries Declared) (d : Declared) (key : String) :
    (withDeclared replaces merged d).get? key =
      if d.outputName = key then some (joined replaces (merged.get? key) d) else merged.get? key := by
  by_cases hkey : d.outputName = key
  · subst hkey
    rw [if_pos rfl, withDeclared, joined]
    cases hc : merged.get? d.outputName with
    | none => exact Entries.get?_set_self _ _ _
    | some c =>
      dsimp only [Option.elim_some]
      split
      · split
        · exact Entries.get?_set_self _ _ _
        · exact hc
      · split
        · exact Entries.get?_set_self _ _ _
        · exact hc
  · rw [if_neg hkey, withDeclared]
    have hset : ∀ e, (merged.set d.outputName e).get? key = merged.get? key := fun e =>
      Entries.get?_set_ne merged e (Ne.symm hkey)
    split
    · exact hset _
    · split
      · split
        · exact hset _
        · rfl
      · split
        · exact hset _
        · rfl

/-- The field of an output name depends on the declarations of that name only. -/
theorem get?_foldl_withDeclared (replaces : Bool) (ds : List Declared) (merged : Entries Declared) (key : String) :
    (ds.foldl (withDeclared replaces) merged).get? key =
      (namesakes ds key).foldl (fun c d => some (joined replaces c d)) (merged.get? key) := by
  induction ds generalizing merged with
  | nil => rfl
  | cons d ds ih =>
    rw [List.foldl_cons, ih, get?_withDeclared]
    unfold namesakes
    by_cases hkey : d.outputName = key
    · rw [if_pos hkey, List.filter_cons_of_pos (by simpa using hkey), List.foldl_cons]
    · rw [if_neg hkey, List.filter_cons_of_neg (by simpa using hkey)]

theorem joined_of_origin (h : c.origin = d.origin) : joined replaces (some c) d = if replaces then d else c := by
  rw [joined, Option.elim_some, if_pos (beq_iff_eq.2 h)]

theorem foldl_joined_first (h : ∀ d ∈ ds, d.origin = o) :
    ds.foldl (fun c d => some (joined false c d)) none = ds.head? := by
  cases ds with
  | nil => rfl
  | cons c ds =>
    obtain ⟨hc, hds⟩ := List.forall_mem_cons.1 h
    refine List.foldlRecOn (motive := fun c' => c' = some c) ds _ rfl ?_
    rintro _ rfl d hd
    rw [joined_of_origin (hc.trans (hds d hd).symm)]
    rfl

/-- Of declarations of one origin the last stays, if later ones replace the others. -/
theorem foldl_joined_last (h : ∀ d ∈ ds, d.origin = o) :
    ds.foldl (fun c d => some (joined true c d)) none = ds.getLast? := by
  induction ds using List.reverseRecOn with
  | nil => rfl
  | append_singleton ds d ih =>
    rw [List.foldl_append, List.foldl_cons, List.foldl_nil, ih (List.forall_mem_append.1 h).1,
      List.getLast?_append_of_ne_nil _ (List.cons_ne_nil d []), List.getLast?_singleton]
    cases hc : ds.getLast? with
    | none => rfl
    | some c =>
      have horigin : c.origin = d.origin :=
        (h c (List.mem_append_left _ (List.mem_of_getLast? hc))).trans (h d (by simp)).symm
      rw [joined_of_origin horigin, if_pos rfl]

theorem filledFrom_of_isDescribed (h : d.isDescribed = true) (ds : List Declared) : d.filledFrom ds = d := if_pos h

theorem filledFrom_of_not_isDescribed (h : d.isDescribed = false) (ds : List Declared) :
    d.filledFrom ds = d.withDescription ((description? ds).or d.description) := if_neg (Bool.eq_false_iff.1 h)

theorem origin_filledFrom (d : Declared) (ds : List Declared) : (d.filledFrom ds).origin = d.origin := by
  unfold Declared.filledFrom
  split <;> rfl

/-- A field of another origin takes the first description, if it has none. -/
theorem foldl_joined_filled (h : ∀ d ∈ ds, d.origin = o) (hc : c.origin ≠ o) :
    ds.foldl (fun c d => some (joined replaces c d)) (some c) = some (c.filledFrom ds) := by
  induction ds generalizing c with
  | nil => exact congrArg some (ite_self c).symm
  | cons d ds ih =>
    obtain ⟨hd, hds⟩ := List.forall_mem_cons.1 h
    have horigin : (c.origin == d.origin) = false := by simpa [hd] using hc
    rw [List.foldl_cons, joined, Option.elim_some, horigin, if_neg Bool.false_ne_true]
    cases hcd : c.isDescribed with
    | true =>
      rw [Bool.not_true, Bool.false_and, if_neg Bool.false_ne_true, ih hds hc, filledFrom_of_isDescribed hcd,
        filledFrom_of_isDescribed hcd]
    | false =>
      cases hdd : d.isDescribed with
      | true =>
        obtain ⟨v, hv⟩ := exists_of_isDescribed hdd
        have hfilled : (c.withDescription d.description).isDescribed = true := hdd
        have hkept : (c.withDescription d.description).origin ≠ o := hc
        rw [Bool.not_false, Bool.true_and, if_pos rfl, ih hds hkept, filledFrom_of_isDescribed hfilled,
          filledFrom_of_not_isDescribed hcd, description?_cons, if_pos hdd, hv]
        rfl
      | false =>
        rw [Bool.and_false, if_neg Bool.false_ne_true, ih hds hc, filledFrom_of_not_isDescribed hcd,
          filledFrom_of_not_isDescribed hcd, description?_cons, hdd, if_neg Bool.false_ne_true]

theorem filledFrom_append (d : Declared) (ds es : List Declared) :
    (d.filledFrom ds).filledFrom es = d.filledFrom (ds ++ es) := by
  cases hd : d.isDescribed with
  | true => rw [filledFrom_of_isDescribed hd, filledFrom_of_isDescribed hd, filledFrom_of_isDescribed hd]
  | false =>
    rw [filledFrom_of_not_isDescribed hd, filledFrom_of_not_isDescribed hd, description?_append]
    cases hv : description? ds with
    | none => exact filledFrom_of_not_isDescribed hd es
    | some v =>
      have hfilled : (d.withDescription (some v)).isDescribed = true := truthy_of_description? hv
      exact filledFrom_of_isDescribed hfilled es

end

/-! ## Declarations of all origins -/

/-- The declarations of a class by their origins, the nearest first. -/
structure Tiers where
  decorated : List Declared
  typed : List Declared
  documented : List Declared
  origin_decorated : ∀ d ∈ decorated, d.origin = .decorator
  origin_typed : ∀ d ∈ typed, d.origin = .typed
  origin_documented : ∀ d ∈ documented, d.origin = .docstring

namespace Tiers

variable (t : Tiers) {key : String}

/-- The field of an output name, with the description of a decorator from annotations in some order. -/
def fieldBy (typed : List Declared) (key : String) : Option Declared :=
  ((nearest? t.decorated key).map (·.filledFrom (namesakes (typed ++ t.documented) key))).or
    (((nearest? t.typed key).map (·.filledFrom (namesakes t.documented key))).or (nearest? t.documented key))

/-- The nearest declaration of the highest origin, with the nearest description if it has none itself. -/
def field? (key : String) : Option Declared := t.fieldBy t.typed key

/-- Annotations count from the farthest class on, so that the nearest replaces the others. -/
def merge : List Declared := Field.merge t.decorated t.typed.reverse t.documented

/-- Where a decorator says nothing, the nearest and the farthest of the annotations that say something say the same. -/
def Agree : Prop := ∀ key d, nearest? t.decorated key = some d → d.isDescribed = false →
  description? (namesakes t.typed key) = description? (namesakes t.typed key).reverse

end Tiers

/-- Every declaration is kept under its output name. -/
structure Filed (merged : Entries Declared) : Prop where
  name : ∀ key d, merged.get? key = some d → d.outputName = key
  nodup : (Entries.keys merged).Nodup

namespace Filed

variable {merged : Entries Declared}

theorem set (h : Filed merged) {key : String} {d : Declared} (hd : d.outputName = key) : Filed (merged.set key d) where
  name k e he := by
    rw [Entries.get?_set] at he
    split at he
    · rename_i hkey
      cases he
      exact hd.trans hkey
    · exact h.name k e he
  nodup := Entries.nodup_keys_set key d h.nodup

theorem withDeclared (h : Filed merged) (replaces : Bool) (d : Declared) :
    Filed (Field.withDeclared replaces merged d) := by
  unfold Field.withDeclared
  split
  · exact h.set rfl
  · rename_i current hcurrent
    have hname : current.outputName = d.outputName := h.name _ _ hcurrent
    split
    · split
      · exact h.set rfl
      · exact h
    · split
      · exact h.set hname
      · exact h

theorem foldl (h : Filed merged) (replaces : Bool) (ds : List Declared) :
    Filed (ds.foldl (Field.withDeclared replaces) merged) :=
  List.foldlRecOn (motive := Filed) ds _ h fun _ h d _ => h.withDeclared replaces d

theorem keyed_values (h : Filed merged) : keyed merged.values = merged := by
  rw [keyed, Entries.values, List.map_map]
  refine (List.map_congr_left fun p hp => ?_).trans (List.map_id _)
  exact Prod.ext (h.name _ _ (Entries.get?_of_mem h.nodup hp)) rfl

end Filed

namespace Tiers

variable (t : Tiers)

/-- The fields under their output names. -/
def entries : Entries Declared :=
  t.documented.foldl (withDeclared false)
    (t.typed.reverse.foldl (withDeclared true) (t.decorated.foldl (withDeclared false) []))

theorem filed_entries : Filed t.entries := by
  have hnone : Filed [] := ⟨fun _ _ h => (Option.some_ne_none _ h.symm).elim, List.nodup_nil⟩
  exact ((hnone.foldl false t.decorated).foldl true t.typed.reverse).foldl false t.documented

theorem merge_eq : t.merge = t.entries.values := rfl

theorem nodup_merge : (t.merge.map Declared.outputName).Nodup := by
  have hkeys : t.merge.map Declared.outputName = Entries.keys (keyed t.merge) := by
    rw [Entries.keys, keyed, List.map_map]
    rfl
  rw [hkeys, merge_eq, t.filed_entries.keyed_values]
  exact t.filed_entries.nodup

theorem nearest?_merge (key : String) : nearest? t.merge key = t.fieldBy t.typed.reverse key := by
  have hdecorated : ∀ d ∈ namesakes t.decorated key, d.origin = .decorator := fun d hd =>
    t.origin_decorated d (List.mem_filter.1 hd).1
  have htyped : ∀ d ∈ namesakes t.typed.reverse key, d.origin = .typed := fun d hd =>
    t.origin_typed d (List.mem_reverse.1 (List.mem_filter.1 hd).1)
  have hdocumented : ∀ d ∈ namesakes t.documented key, d.origin = .docstring := fun d hd =>
    t.origin_documented d (List.mem_filter.1 hd).1
  rw [← get?_keyed, merge_eq, t.filed_entries.keyed_values, entries, get?_foldl_withDeclared, get?_foldl_withDeclared,
    get?_foldl_withDeclared, Entries.get?, foldl_joined_first hdecorated, head?_namesakes, fieldBy, namesakes_append]
  cases hd : nearest? t.decorated key with
  | some d =>
    have hd : d.origin = .decorator := t.origin_decorated d (List.mem_of_find?_eq_some hd)
    rw [foldl_joined_filled htyped (by simp [hd]), foldl_joined_filled hdocumented (by simp [origin_filledFrom, hd]),
      filledFrom_append]
    rfl
  | none =>
    rw [foldl_joined_last htyped, ← List.head?_reverse, ← namesakes_reverse, head?_namesakes, List.reverse_reverse]
    cases he : nearest? t.typed key with
    | some e =>
      have he : e.origin = .typed := t.origin_typed e (List.mem_of_find?_eq_some he)
      rw [foldl_joined_filled hdocumented (by simp [he])]
      rfl
    | none =>
      rw [foldl_joined_first hdocumented, head?_namesakes]
      rfl

/-- The order of the annotations matters only for decorators that say nothing. -/
theorem fieldBy_reverse_iff : (∀ key, t.fieldBy t.typed.reverse key = t.field? key) ↔ t.Agree := by
  constructor
  · intro h key d hd hnot
    have hfield := h key
    rw [field?, fieldBy, fieldBy, hd, Option.map_some, Option.map_some, Option.some_or, Option.some_or,
      filledFrom_of_not_isDescribed hnot, filledFrom_of_not_isDescribed hnot, namesakes_append, namesakes_append,
      namesakes_reverse, description?_append, description?_append] at hfield
    have hdescription := congrArg Declared.description (Option.some.inj hfield)
    cases hfirst : description? (namesakes t.typed key) with
    | none => exact (description?_reverse_eq_none_iff.2 hfirst).symm
    | some v =>
      cases hlast : description? (namesakes t.typed key).reverse with
      | none => exact absurd hfirst (by simp [description?_reverse_eq_none_iff.1 hlast])
      | some w =>
        rw [hfirst, hlast] at hdescription
        exact hdescription.symm
  · intro h key
    unfold field? fieldBy
    cases hd : nearest? t.decorated key with
    | none => rfl
    | some d =>
      cases hnot : d.isDescribed with
      | true => rw [Option.map_some, Option.map_some, filledFrom_of_isDescribed hnot, filledFrom_of_isDescribed hnot]
      | false =>
        rw [Option.map_some, Option.map_some, filledFrom_of_not_isDescribed hnot, filledFrom_of_not_isDescribed hnot,
          namesakes_append, namesakes_append, namesakes_reverse, description?_append, description?_append,
            ← h key d hd hnot]

/-- What the fields are that some declarations come to. -/
structure Settles (fields : List Declared) : Prop where
  nodup : (fields.map Declared.outputName).Nodup
  /-- A decorator that says nothing takes the farthest description of the annotations. -/
  nearest?_eq : ∀ key, nearest? fields key = t.fieldBy t.typed.reverse key
  field?_iff : (∀ key, nearest? fields key = t.field? key) ↔ t.Agree

theorem settles_merge : t.Settles t.merge where
  nodup := t.nodup_merge
  nearest?_eq := t.nearest?_merge
  field?_iff := by
    simp only [nearest?_merge]
    exact t.fieldBy_reverse_iff

end Tiers

/-! ## Chains -/

/-- The declarations of a chain of classes, with their names in a style. -/
def tiersOf (direction : Direction) (style : Option String) (chain : List Link) : Tiers where
  decorated := chain.flatMap fun l => (ofDecorators direction l.scope l.cls.decorators).map (restyled style)
  typed := chain.flatMap fun l => (ofClass direction style l).reverse
  documented := chain.flatMap fun l =>
    (inDocstring (l.cls.docstring.getD "")).map fun d => { restyled style d with scope := some l.scope }
  origin_decorated d hd := by
    obtain ⟨l, -, hd⟩ := List.mem_flatMap.1 hd
    obtain ⟨e, he, rfl⟩ := List.mem_map.1 hd
    obtain ⟨c, -, hc⟩ := List.mem_filterMap.1 he
    obtain ⟨name, -, hname⟩ := Option.bind_eq_some_iff.1 hc
    cases hname
    rfl
  origin_typed d hd := by
    obtain ⟨l, -, hd⟩ := List.mem_flatMap.1 hd
    obtain ⟨f, -, rfl⟩ := List.mem_map.1 (List.mem_reverse.1 hd)
    rfl
  origin_documented d hd := by
    obtain ⟨l, -, hd⟩ := List.mem_flatMap.1 hd
    obtain ⟨e, he, rfl⟩ := List.mem_map.1 hd
    obtain ⟨_, -, rfl⟩ := List.mem_map.1 he
    rfl

theorem ofChain_eq {direction : Direction} {chain : List Link} {style : Option String} (h : styleOf chain = .ok style)
    (htypes : checkTypes direction (chain.flatMap (·.cls.decorators)) = .ok ()) :
    ofChain direction chain = .ok (tiersOf direction style chain).merge := by
  have htyped : chain.reverse.flatMap (ofClass direction style) = (tiersOf direction style chain).typed.reverse := by
    simp [tiersOf, List.reverse_flatMap, Function.comp_def]
  unfold ofChain
  rw [h, htypes]
  change Except.ok (Field.merge _ _ _) = _
  rw [htyped]
  rfl

end Field

namespace Infer

open ApiSchema.Field

/-- The fields of a class have different output names. Of each one they have what the order of the chain tells, if
decorators that say nothing leave no doubt about the description, and only then; a doubt is settled for the farthest
annotation. There are no fields only if the chain, or a name style or a decorated type along it, cannot be told. -/
theorem declaredFields_priority (r : Library) (a : Located) (direction : Direction) :
    (∃ p, result (ancestorChain a) r = .error p ∧ result (declaredFields direction (.cls a)) r = .error p) ∨
    ∃ chain, result (ancestorChain a) r = .ok chain ∧
      ((∃ f, (styleOf (chain.map linkOf) = .error f ∨
          checkTypes direction ((chain.map linkOf).flatMap (·.cls.decorators)) = .error f) ∧
        result (declaredFields direction (.cls a)) r = .error (.fault f)) ∨
      ∃ style fields, styleOf (chain.map linkOf) = .ok style ∧
        result (declaredFields direction (.cls a)) r = .ok fields ∧
        (tiersOf direction style (chain.map linkOf)).Settles fields) := by
  cases hchain : result (ancestorChain a) r with
  | error p =>
    refine .inl ⟨p, rfl, ?_⟩
    unfold declaredFields
    rw [result_bind, hchain]
  | ok chain =>
    refine .inr ⟨chain, rfl, ?_⟩
    rw [result_declaredFields_cls hchain]
    cases hstyle : styleOf (chain.map linkOf) with
    | error f =>
      refine .inl ⟨f, .inl rfl, ?_⟩
      unfold ofChain
      rw [hstyle]
      rfl
    | ok style =>
      cases htypes : checkTypes direction ((chain.map linkOf).flatMap (·.cls.decorators)) with
      | error f =>
        refine .inl ⟨f, .inr rfl, ?_⟩
        unfold ofChain
        rw [hstyle, htypes]
        rfl
      | ok _ =>
        rw [ofChain_eq hstyle htypes]
        exact .inr ⟨style, _, rfl, rfl, Tiers.settles_merge _⟩

/-- A whole number `x` with a description. -/
def describedField (text : String) : Source.Field :=
  { name := "x", typeText := "int", line := 1,
    call := some { name := "Field", kwargs := [("description", .str text)] } }

/-- The class `B` and its base `A` describe a field, which a decorator of `B` declares without a description. -/
def twiceDescribed : Source.Module := moduleOf [
  { recordOf "A" [] with fields := [describedField "far"] },
  { recordOf "B" [] with
    bases := ["A"], decorators := [{ name := "response_field", args := [.str "x"] }],
    fields := [describedField "near"] }]

/-- The texts that describe some fields. -/
def descriptionsOf (ds : List Declared) : List (Option String) := ds.map fun d => d.description.bind Value.str?

/-- The nearest description is that of `B`, and the field has that of `A`. -/
theorem described_by_farthest :
    (result (ancestorChain (member twiceDescribed "B")) (libraryOf twiceDescribed true)).toOption.map
      (List.map Located.qualifiedName) = some ["m.B", "m.A"] ∧
    (styleOf ((["B", "A"].map (member twiceDescribed)).map linkOf)).toOption = some none ∧
    ((tiersOf .output none ((["B", "A"].map (member twiceDescribed)).map linkOf)).field? "x").map
      (fun d => descriptionsOf [d]) = some [some "near"] ∧
    (result (declaredFields .output (.cls (member twiceDescribed "B"))) (libraryOf twiceDescribed true)).toOption.map
      descriptionsOf = some [some "far"] := by
  refine ⟨?_, ?_, ?_, ?_⟩ <;> decide +kernel

end Infer

end ApiSchema
