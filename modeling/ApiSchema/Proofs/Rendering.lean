import ApiSchema.Proofs.Entries
import ApiSchema.Proofs.Family
import ApiSchema.Schema.Document
import Mathlib.Tactic.MkIffOfInductiveProp

/-!
# Documents tell schemas apart

A document leaves out what a facet does not say, moves the flags of required properties to their parent, and splices the
constraints in between the other keys. Still two schemas have equal documents only if they are equal but for what
`Node.erased` takes away (`document_eq_iff_erased`).

Every document is read off the same slots (`Slot`), which have distinct keys and stand in a fixed order. So two
documents are equal if and only if they agree slot by slot (`Equality.document_iff`), and each facet of a node is found
in its own slots again. Values count as equal if they are the same, or if they are equal as ordered dictionaries, in
which numbers are compared by value (`Value.Equality`).
-/
namespace ApiSchema

/-! ## Equal values -/

namespace Value

mutual

/-- Equality of values, in which dictionaries have equal entries in the same order. -/
def sameInOrder : Value → Value → Bool
  | .list xs, .list ys | .tuple xs, .tuple ys => sameAllInOrder xs ys
  | .dict es, .dict fs => sameEntriesInOrder es fs
  | v, w => same v w

def sameAllInOrder : List Value → List Value → Bool
  | [], [] => true
  | x :: xs, y :: ys => sameInOrder x y && sameAllInOrder xs ys
  | _, _ => false

def sameEntriesInOrder : List (Value × Value) → List (Value × Value) → Bool
  | [], [] => true
  | (k, v) :: es, (l, w) :: fs => sameInOrder k l && sameInOrder v w && sameEntriesInOrder es fs
  | _, _ => false

end

/-- What may count as equality of values: lists and dictionaries are compared part by part in order, and texts as they
are. -/
structure Equality (R : Value → Value → Prop) : Prop where
  yes : R (.bool true) (.bool true)
  str : ∀ s t, R (.str s) (.str t) ↔ s = t
  list : ∀ xs ys, R (.list xs) (.list ys) ↔ List.Forall₂ R xs ys
  dict : ∀ es fs, R (.dict es) (.dict fs) ↔ List.Forall₂ (fun e f => R e.1 f.1 ∧ R e.2 f.2) es fs

theorem equality_eq : Equality Eq where
  yes := rfl
  str s t := by simp
  list xs ys := by
    rw [List.forall₂_eq_eq_eq]
    simp
  dict es fs := by
    simp [← Prod.ext_iff]

theorem equality_sameInOrder : Equality fun v w => sameInOrder v w = true where
  yes := by simp [sameInOrder, same, sameNumber, numeric?, Numeric.same]
  str s t := by simp [sameInOrder, same]
  list xs ys := by
    rw [sameInOrder]
    induction xs generalizing ys with
    | nil => cases ys <;> simp [sameAllInOrder]
    | cons x xs ih => cases ys <;> simp [sameAllInOrder, ih]
  dict es fs := by
    rw [sameInOrder]
    induction es generalizing fs with
    | nil => cases fs <;> simp [sameEntriesInOrder]
    | cons e es ih => cases fs <;> simp [sameEntriesInOrder, ih]

end Value

/-! ## Equal nodes -/

section

variable (R : Value → Value → Prop)

@[mk_iff]
structure Constraints.Matches (c d : Constraints) : Prop where
  minimum : Option.Rel R c.minimum d.minimum
  maximum : Option.Rel R c.maximum d.maximum
  minLength : Option.Rel R c.minLength d.minLength
  maxLength : Option.Rel R c.maxLength d.maxLength
  minItems : Option.Rel R c.minItems d.minItems
  maxItems : Option.Rel R c.maxItems d.maxItems
  pattern : Option.Rel R c.pattern d.pattern

@[mk_iff]
structure Requirement.Matches (r s : Requirement) : Prop where
  kind : r.kind = s.kind
  description : r.description = s.description
  fields : r.fields = s.fields
  value : Option.Rel R r.value s.value

@[mk_iff]
structure Facets.Matches (f g : Facets) : Prop where
  format : Option.Rel R f.format g.format
  nullable : f.nullable = g.nullable
  required : f.required = g.required
  deprecated : f.deprecated = g.deprecated
  conditional : f.conditional = g.conditional
  enumValues : Option.Rel (List.Forall₂ R) f.enumValues g.enumValues
  sample : Option.Rel R f.sample g.sample
  description : Option.Rel R f.description g.description
  constraints : Option.Rel (Constraints.Matches R) f.constraints g.constraints
  requirements : List.Forall₂ (Requirement.Matches R) f.requirements g.requirements
  sourceType : f.sourceType = g.sourceType
  circularRef : f.circularRef = g.circularRef

mutual

/-- The same node but for values that count as equal. -/
def Node.Matches : Node → Node → Prop
  | .scalar k f, .scalar l g => k = l ∧ f.Matches R g
  | .array f m, .array g n => f.Matches R g ∧ m.Matches n
  | .object f ps, .object g qs => f.Matches R g ∧ propertiesMatch ps qs
  | .union f v vs, .union g w ws => f.Matches R g ∧ v.Matches w ∧ variantsMatch vs ws
  | _, _ => False

def propertiesMatch : List (String × Node) → List (String × Node) → Prop
  | [], [] => True
  | (k, m) :: ps, (l, n) :: qs => (k = l ∧ m.Matches n) ∧ propertiesMatch ps qs
  | _, _ => False

def variantsMatch : List Node → List Node → Prop
  | [], [] => True
  | m :: vs, n :: ws => m.Matches n ∧ variantsMatch vs ws
  | _, _ => False

end

theorem Node.Matches.kind_eq {m n : Node} (h : m.Matches R n) : m.kind = n.kind := by
  cases m <;> cases n <;> simp_all [Matches, kind]

/-- Beside equal flags, whether nodes are required is compared on its own. -/
theorem Node.matches_withRequired {m n : Node} (h : m.facets.required = n.facets.required) (b c : Bool) :
    (m.withRequired b).Matches R (n.withRequired c) ↔ b = c ∧ m.Matches R n := by
  cases m <;> cases n <;> simp only [withRequired, mapFacets, withFacets, facets, Matches, Facets.matches_iff] at * <;>
    tauto

theorem propertiesMatch_iff (ps qs : List (String × Node)) :
    propertiesMatch R ps qs ↔ List.Forall₂ (fun p q => p.1 = q.1 ∧ p.2.Matches R q.2) ps qs := by
  induction ps generalizing qs with
  | nil => cases qs <;> simp [propertiesMatch]
  | cons p ps ih => cases qs <;> simp [propertiesMatch, ih]

theorem variantsMatch_iff (vs ws : List Node) : variantsMatch R vs ws ↔ List.Forall₂ (Node.Matches R) vs ws := by
  induction vs generalizing ws with
  | nil => cases ws <;> simp [variantsMatch]
  | cons v vs ih => cases ws <;> simp [variantsMatch, ih]

end

/-! ## What a document does not tell -/

/-- The value of a requirement counts only beside one field. -/
def Requirement.erased (r : Requirement) : Requirement := if r.fields.length = 1 then r else { r with value := none }

def Value.isEmptyText : Value → Bool
  | .str s => s.isEmpty
  | _ => false

/-- An empty text is no facet, constraints without any bound are none, and nothing tells where a node comes from or
whether it is required. -/
def Facets.erased (f : Facets) : Facets :=
  { f with
    format := f.format.filter (!·.isEmptyText)
    required := false
    description := f.description.filter (!·.isEmptyText)
    constraints := f.constraints.filter (!·.isEmpty)
    requirements := f.requirements.map Requirement.erased
    sourceType := none
    circularRef := none }

mutual

/-- The node without what its document does not tell. Only properties keep whether they are required. -/
def Node.erased : Node → Node
  | .scalar k f => .scalar k f.erased
  | .array f n => .array f.erased n.erased
  | .object f ps => .object f.erased (erasedProperties ps)
  | .union f v vs => .union f.erased v.erased (erasedVariants vs)

def erasedProperties : List (String × Node) → List (String × Node)
  | [] => []
  | (name, n) :: rest => (name, n.erased.withRequired n.facets.required) :: erasedProperties rest

def erasedVariants : List Node → List Node
  | [] => []
  | n :: rest => n.erased :: erasedVariants rest

end

theorem erasedProperties_eq (ps : List (String × Node)) :
    erasedProperties ps = ps.map fun p => (p.1, p.2.erased.withRequired p.2.facets.required) := by
  induction ps with
  | nil => rfl
  | cons p ps ih => simp [erasedProperties, ih]

theorem erasedVariants_eq (vs : List Node) : erasedVariants vs = vs.map Node.erased := by
  induction vs with
  | nil => rfl
  | cons v vs ih => simp [erasedVariants, ih]

theorem Node.kind_erased (n : Node) : n.erased.kind = n.kind := by
  cases n <;> rfl

theorem Node.required_erased (m n : Node) : m.erased.facets.required = n.erased.facets.required := by
  cases m <;> cases n <;> rfl

/-- Format and description are texts. -/
structure Facets.Valid (f : Facets) : Prop where
  format : ∀ v, f.format = some v → ∃ s, v = .str s
  description : ∀ v, f.description = some v → ∃ s, v = .str s

/-- A node with valid facets at every place, whose properties have distinct names. -/
inductive Node.Valid : Node → Prop
  | scalar {k f} (hf : f.Valid) : Valid (.scalar k f)
  | array {f n} (hf : f.Valid) (hn : Valid n) : Valid (.array f n)
  | object {f ps} (hf : f.Valid) (hnames : (ps.map Prod.fst).Nodup) (h : ∀ p ∈ ps, Valid p.2) : Valid (.object f ps)
  | union {f v vs} (hf : f.Valid) (hv : Valid v) (h : ∀ w ∈ vs, Valid w) : Valid (.union f v vs)

variable {n a b : Node} {c d : Constraints} {name : String} {f g : Facets} {o : Option Value}
  {ps qs : List (String × Node)}

theorem Node.Valid.facets (h : n.Valid) : n.facets.Valid := by
  cases h <;> assumption

/-! ## Slots -/

/-- The places of a document. -/
inductive Slot where
  | oneOf
  | type
  | format
  | nullable
  | description
  | deprecated
  | enum
  | minimum
  | maximum
  | minLength
  | maxLength
  | minItems
  | maxItems
  | pattern
  | items
  | properties
  | required
  | sample
  | conditional
  | requirements
deriving DecidableEq

namespace Slot

def key : Slot → String
  | oneOf => "oneOf"
  | type => "type"
  | format => "format"
  | nullable => "nullable"
  | description => "description"
  | deprecated => "deprecated"
  | enum => "enum"
  | minimum => "minimum"
  | maximum => "maximum"
  | minLength => "minLength"
  | maxLength => "maxLength"
  | minItems => "minItems"
  | maxItems => "maxItems"
  | pattern => "pattern"
  | items => "items"
  | properties => "properties"
  | required => "required"
  | sample => "example"
  | conditional => "x-conditional"
  | requirements => "x-conditional-required"

/-- All slots in the order of a document. -/
def all : List Slot := [oneOf, type, format, nullable, description, deprecated, enum, minimum, maximum, minLength,
  maxLength, minItems, maxItems, pattern, items, properties, required, sample, conditional, requirements]

theorem mem_all (s : Slot) : s ∈ all := by
  cases s <;> decide

theorem nodup_keys_all : (all.map key).Nodup := by
  decide

/-- Whether the value of a slot is a facet of the node. -/
def ofFacets : Slot → Bool
  | oneOf | type | items | properties | required => false
  | _ => true

end Slot

/-- A value, if a condition holds. -/
def Value.onlyIf (p : Bool) (v : Value) : Option Value := if p then some v else none

@[simp]
theorem Value.onlyIf_false (v : Value) : Value.onlyIf false v = none := rfl

/-- The constraints, if there are none without any bound. -/
def Facets.bounds (f : Facets) : Constraints := f.constraints.getD {}

/-- What stands in a slot of the document of a node. -/
def Node.slot (n : Node) : Slot → Option Value
  | .oneOf => match n with
    | .union _ v vs => some (.list (v.document :: variantDocuments vs))
    | _ => none
  | .type => match n with
    | .union _ _ _ => none
    | n => some (.str n.kind.name)
  | .format => n.facets.format.filter Value.truthy
  | .nullable => Value.onlyIf n.facets.nullable (.bool true)
  | .description => n.facets.description.filter Value.truthy
  | .deprecated => Value.onlyIf n.facets.deprecated (.bool true)
  | .enum => n.facets.enumValues.map .list
  | .minimum => n.facets.bounds.minimum
  | .maximum => n.facets.bounds.maximum
  | .minLength => n.facets.bounds.minLength
  | .maxLength => n.facets.bounds.maxLength
  | .minItems => n.facets.bounds.minItems
  | .maxItems => n.facets.bounds.maxItems
  | .pattern => n.facets.bounds.pattern
  | .items => match n with
    | .array _ m => some m.document
    | _ => none
  | .properties => match n with
    | .object _ ps => some (.dict (propertyDocuments ps))
    | _ => none
  | .required => Value.onlyIf (!n.requiredNames.isEmpty) (.strings n.requiredNames)
  | .sample => n.facets.sample
  | .conditional => Value.onlyIf n.facets.conditional (.bool true)
  | .requirements =>
    Value.onlyIf (!n.facets.requirements.isEmpty) (.list (n.facets.requirements.map Requirement.document))

/-- The entry of a slot that is filled. -/
def Node.entry? (n : Node) (s : Slot) : Option (String × Value) := (n.slot s).map (s.key, ·)

theorem entryIf_eq (p : Bool) (key : String) (v : Value) :
    entryIf p key v = ((Value.onlyIf p v).map (key, ·)).toList := by
  cases p <;> rfl

theorem entryOf_eq (key : String) (o : Option Value) :
    entryOf key o = ((o.filter Value.truthy).map (key, ·)).toList := by
  cases o with
  | none => rfl
  | some v => cases h : v.truthy <;> simp [entryOf, entryIf, h, Option.filter]

theorem constraintEntries_eq (f : Facets) : (f.constraints.map Constraints.entries).getD [] = f.bounds.entries := by
  unfold Facets.bounds
  cases f.constraints <;> rfl

/-- A document holds the slots that are filled. -/
theorem Node.document_eq (n : Node) : n.document = .ofEntries (Slot.all.filterMap n.entry?) := by
  rw [List.filterMap_eq_flatMap_toList]
  cases n <;>
    simp [Node.document, Slot.all, Node.entry?, Node.slot, Facets.headEntries, Facets.tailEntries,
      entryIf_eq, entryOf_eq,
      constraintEntries_eq, Constraints.entries, List.filterMap_eq_flatMap_toList, Slot.key, Node.facets, Node.kind,
      Node.requiredNames, Node.properties, Function.comp_def]

/-! ## Constraints and texts -/

section

variable {R : Value → Value → Prop}

theorem isNone_eq_of_rel {o' : Option Value} (h : Option.Rel R o o') : o.isNone = o'.isNone := by
  cases h <;> rfl

theorem Constraints.Matches.isEmpty_eq (h : c.Matches R d) : c.isEmpty = d.isEmpty := by
  simp only [isEmpty, isNone_eq_of_rel h.minimum, isNone_eq_of_rel h.maximum, isNone_eq_of_rel h.minLength,
    isNone_eq_of_rel h.maxLength, isNone_eq_of_rel h.minItems, isNone_eq_of_rel h.maxItems, isNone_eq_of_rel h.pattern]

theorem Constraints.matches_of_isEmpty (hc : c.isEmpty = true) (hd : d.isEmpty = true) :
    c.Matches R d := by
  simp only [isEmpty, Bool.and_eq_true, Option.isNone_iff_eq_none] at hc hd
  simp [matches_iff, hc, hd]

theorem Facets.filter_constraints (f : Facets) :
    f.constraints.filter (!·.isEmpty) = if f.bounds.isEmpty then none else some f.bounds := by
  unfold bounds
  cases f.constraints with
  | none => rfl
  | some c => cases h : c.isEmpty <;> simp [h, Option.filter]

/-- The difference between none and no constraints is the only one that is lost. -/
theorem constraints_iff (f g : Facets) :
    Option.Rel (Constraints.Matches R) (f.constraints.filter (!·.isEmpty)) (g.constraints.filter (!·.isEmpty)) ↔
      f.bounds.Matches R g.bounds := by
  rw [f.filter_constraints, g.filter_constraints]
  by_cases h : f.bounds.isEmpty = g.bounds.isEmpty
  · cases hg : g.bounds.isEmpty with
    | false => simp [h, hg]
    | true => simpa [h, hg] using Constraints.matches_of_isEmpty (h.trans hg) hg
  · refine iff_of_false (fun hrel => h ?_) (fun hmatch => h hmatch.isEmpty_eq)
    cases hf : f.bounds.isEmpty <;> cases hg : g.bounds.isEmpty <;> simp_all

/-- Of all texts only the empty one says nothing. -/
theorem filter_truthy (h : ∀ v, o = some v → ∃ s, v = .str s) :
    o.filter Value.truthy = o.filter (!·.isEmptyText) := by
  cases o with
  | none => rfl
  | some v =>
    obtain ⟨s, rfl⟩ := h v rfl
    simp [Option.filter, Value.truthy, Value.isEmptyText]

end

/-! ## Children -/

theorem forall₂_congr_mem {α : Type} {P Q : α → α → Prop} {xs ys : List α}
    (h : ∀ x ∈ xs, ∀ y ∈ ys, (P x y ↔ Q x y)) : List.Forall₂ P xs ys ↔ List.Forall₂ Q xs ys := by
  rw [List.forall₂_iff_zip, List.forall₂_iff_zip]
  refine and_congr_right fun _ => ⟨fun hP x y hxy => ?_, fun hQ x y hxy => ?_⟩
  · exact (h x (List.of_mem_zip hxy).1 y (List.of_mem_zip hxy).2).1 (hP hxy)
  · exact (h x (List.of_mem_zip hxy).1 y (List.of_mem_zip hxy).2).2 (hQ hxy)

theorem propertyDocuments_eq (ps : List (String × Node)) :
    propertyDocuments ps = ps.map fun p => (.str p.1, p.2.document) := by
  induction ps with
  | nil => rfl
  | cons p ps ih => simp [propertyDocuments, ih]

theorem variantDocuments_eq (vs : List Node) : variantDocuments vs = vs.map Node.document := by
  induction vs with
  | nil => rfl
  | cons v vs ih => simp [variantDocuments, ih]

theorem Kind.name_inj {k l : Kind} : k.name = l.name ↔ k = l := by
  refine ⟨fun h => ?_, congrArg name⟩
  have hsome : some k = some l := by rw [← ofName?_name k, h, ofName?_name l]
  exact Option.some.inj hsome

/-- The names of the properties that are required. -/
def flaggedNames (ps : List (String × Node)) : List String :=
  ps.filterMap fun e => if e.2.facets.required then some e.1 else none

theorem mem_of_mem_flaggedNames (h : name ∈ flaggedNames ps) :
    name ∈ ps.map Prod.fst := by
  obtain ⟨p, hp, hname⟩ := List.mem_filterMap.1 h
  split at hname
  · cases hname
    exact List.mem_map_of_mem hp
  · cases hname

theorem flaggedNames_cons (p : String × Node) (ps : List (String × Node)) :
    flaggedNames (p :: ps) = (if p.2.facets.required then [p.1] else []) ++ flaggedNames ps := by
  cases h : p.2.facets.required <;> simp [flaggedNames, h]

/-- A name that does not stand in the rest tells whether it was put in front. -/
theorem append_flag_iff {xs ys : List String} (hx : name ∉ xs) (hy : name ∉ ys) (b c : Bool) :
    (if b then [name] else []) ++ xs = (if c then [name] else []) ++ ys ↔ b = c ∧ xs = ys := by
  cases b <;> cases c
  · simp
  · refine iff_of_false ?_ (by simp)
    rintro rfl
    exact hx List.mem_cons_self
  · refine iff_of_false ?_ (by simp)
    rintro rfl
    exact hy List.mem_cons_self
  · simp

/-- Under distinct names, the names of the required properties tell which properties are required. -/
theorem forall₂_flags_iff {S : Node → Node → Prop} (hps : (ps.map Prod.fst).Nodup)
    (hqs : (qs.map Prod.fst).Nodup) :
    List.Forall₂ (fun p q => p.1 = q.1 ∧ S p.2 q.2) ps qs ∧ flaggedNames ps = flaggedNames qs ↔
      List.Forall₂ (fun p q => p.1 = q.1 ∧ p.2.facets.required = q.2.facets.required ∧ S p.2 q.2) ps qs := by
  induction ps generalizing qs with
  | nil => cases qs <;> simp
  | cons p ps ih =>
    cases qs with
    | nil => simp
    | cons q qs =>
      obtain ⟨hp, hps⟩ := List.nodup_cons.1 hps
      obtain ⟨hq, hqs⟩ := List.nodup_cons.1 hqs
      rw [List.forall₂_cons, List.forall₂_cons, ← ih hps hqs, flaggedNames_cons, flaggedNames_cons]
      by_cases hname : p.1 = q.1
      · have hp' : q.1 ∉ flaggedNames ps := fun h => hp (hname ▸ mem_of_mem_flaggedNames h)
        have hq' : q.1 ∉ flaggedNames qs := fun h => hq (mem_of_mem_flaggedNames h)
        rw [hname, append_flag_iff hp' hq']
        tauto
      · simp [hname]

namespace Value.Equality

variable {R : Value → Value → Prop} (hR : Equality R)

include hR

theorem ofEntries_iff (es fs : List (String × Value)) :
    R (.ofEntries es) (.ofEntries fs) ↔ List.Forall₂ (fun d e => d.1 = e.1 ∧ R d.2 e.2) es fs := by
  rw [ofEntries, ofEntries, hR.dict, List.forall₂_map_left_iff, List.forall₂_map_right_iff]
  simp only [hR.str]

theorem strings_iff (xs ys : List String) : R (.strings xs) (.strings ys) ↔ xs = ys := by
  rw [strings, strings, hR.list, List.forall₂_map_left_iff, List.forall₂_map_right_iff]
  simp only [hR.str, List.forall₂_eq_eq_eq]

/-- Documents are equal if and only if their slots are. -/
theorem document_iff (a b : Node) : R a.document b.document ↔ ∀ s, Option.Rel R (a.slot s) (b.slot s) := by
  rw [a.document_eq, b.document_eq, hR.ofEntries_iff]
  exact (Entries.forall₂_filterMap_iff Slot.nodup_keys_all a.slot b.slot).trans
    ⟨fun h s => h s s.mem_all, fun h s _ => h s⟩

/-! ## Facets -/

theorem onlyIf_yes_iff (p q : Bool) : Option.Rel R (onlyIf p (.bool true)) (onlyIf q (.bool true)) ↔ p = q := by
  cases p <;> cases q <;> simp [onlyIf, hR.yes]

theorem enum_iff (o o' : Option (List Value)) :
    Option.Rel R (o.map .list) (o'.map .list) ↔ Option.Rel (List.Forall₂ R) o o' := by
  cases o <;> cases o' <;> simp [hR.list]

theorem requirement_iff (r s : Requirement) : R r.document s.document ↔ r.erased.Matches R s.erased := by
  obtain ⟨kind, fields, value, description⟩ := r
  obtain ⟨kind', fields', value', description'⟩ := s
  rcases fields with _ | ⟨field, _ | ⟨next, fields⟩⟩ <;> rcases fields' with _ | ⟨field', _ | ⟨next', fields'⟩⟩ <;>
    cases value <;> cases value' <;>
      simp [Requirement.document, Requirement.erased, hR.ofEntries_iff, hR.str, hR.strings_iff,
        Requirement.matches_iff]

theorem requirements_iff (rs ss : List Requirement) :
    Option.Rel R (onlyIf (!rs.isEmpty) (.list (rs.map Requirement.document)))
        (onlyIf (!ss.isEmpty) (.list (ss.map Requirement.document))) ↔
      List.Forall₂ (Requirement.Matches R) (rs.map Requirement.erased) (ss.map Requirement.erased) := by
  rw [List.forall₂_map_left_iff, List.forall₂_map_right_iff]
  simp only [← hR.requirement_iff]
  cases rs <;> cases ss <;> simp [onlyIf, hR.list]

theorem facets_iff (ha : a.facets.Valid) (hb : b.facets.Valid) :
    a.facets.erased.Matches R b.facets.erased ↔
      ∀ s : Slot, s.ofFacets = true → Option.Rel R (a.slot s) (b.slot s) := by
  have hall : ∀ P : Slot → Prop, (∀ s : Slot, s.ofFacets = true → P s) ↔ ∀ s ∈ Slot.all.filter Slot.ofFacets, P s :=
    fun P => by simp [Slot.mem_all]
  rw [hall, Facets.matches_iff]
  -- Both sides are now the same comparisons, in the order of the facets and in that of the slots.
  simp only [Facets.erased, constraints_iff, Constraints.matches_iff, Slot.all, Slot.ofFacets, List.filter,
    List.forall_mem_cons, List.not_mem_nil, Node.slot, filter_truthy ha.format, filter_truthy hb.format,
    filter_truthy ha.description, filter_truthy hb.description, hR.onlyIf_yes_iff, hR.enum_iff, hR.requirements_iff]
  tauto

/-! ## Shapes -/

theorem requiredNames_iff (xs ys : List String) :
    Option.Rel R (onlyIf (!xs.isEmpty) (.strings xs)) (onlyIf (!ys.isEmpty) (.strings ys)) ↔ xs = ys := by
  cases xs <;> cases ys <;> simp [onlyIf, hR.strings_iff]

theorem properties_iff (ps qs : List (String × Node)) :
    R (.dict (propertyDocuments ps)) (.dict (propertyDocuments qs)) ↔
      List.Forall₂ (fun p q => p.1 = q.1 ∧ R p.2.document q.2.document) ps qs := by
  rw [propertyDocuments_eq, propertyDocuments_eq, hR.dict, List.forall₂_map_left_iff, List.forall₂_map_right_iff]
  simp only [hR.str]

theorem variants_iff (vs ws : List Node) :
    R (.list (variantDocuments vs)) (.list (variantDocuments ws)) ↔
      List.Forall₂ (fun v w => R v.document w.document) vs ws := by
  rw [variantDocuments_eq, variantDocuments_eq, hR.list, List.forall₂_map_left_iff, List.forall₂_map_right_iff]

/-- Documents are equal if and only if the facets and the slots that depend on the shape are. -/
theorem document_iff_shape (ha : a.facets.Valid) (hb : b.facets.Valid) :
    R a.document b.document ↔ a.facets.erased.Matches R b.facets.erased ∧ Option.Rel R (a.slot .oneOf) (b.slot .oneOf) ∧
      Option.Rel R (a.slot .type) (b.slot .type) ∧ Option.Rel R (a.slot .items) (b.slot .items) ∧
      Option.Rel R (a.slot .properties) (b.slot .properties) ∧ Option.Rel R (a.slot .required) (b.slot .required) := by
  rw [hR.document_iff, hR.facets_iff ha hb]
  constructor
  · intro h
    exact ⟨fun s _ => h s, h _, h _, h _, h _, h _⟩
  · rintro ⟨hfacets, honeOf, htype, hitems, hproperties, hrequired⟩ s
    cases s <;> first | assumption | exact hfacets _ rfl

theorem kind_eq (h : R a.document b.document) : a.kind = b.kind := by
  have honeOf := (hR.document_iff a b).1 h .oneOf
  have htype := (hR.document_iff a b).1 h .type
  cases a <;> cases b <;> simp_all [Node.slot, Node.kind, hR.str, Kind.name_inj]

theorem scalar_iff (hf : f.Valid) (hg : g.Valid) (k l : Scalar) :
    R (Node.scalar k f).document (Node.scalar l g).document ↔ k = l ∧ f.erased.Matches R g.erased := by
  rw [hR.document_iff_shape (Node.Valid.scalar hf).facets (Node.Valid.scalar hg).facets]
  simp [Node.slot, Node.facets, Node.kind, Node.requiredNames, Node.properties, hR.str, Kind.name_inj, and_comm]

theorem array_iff (hf : f.Valid) (hg : g.Valid) (m n : Node) :
    R (Node.array f m).document (Node.array g n).document ↔
      f.erased.Matches R g.erased ∧ R m.document n.document := by
  rw [hR.document_iff_shape (a := .array f m) (b := .array g n) hf hg]
  simp [Node.slot, Node.facets, Node.kind, Node.requiredNames, Node.properties, hR.str]

theorem object_iff (hf : f.Valid) (hg : g.Valid)
    (hps : (ps.map Prod.fst).Nodup) (hqs : (qs.map Prod.fst).Nodup) :
    R (Node.object f ps).document (Node.object g qs).document ↔ f.erased.Matches R g.erased ∧
      List.Forall₂ (fun p q => p.1 = q.1 ∧ p.2.facets.required = q.2.facets.required ∧ R p.2.document q.2.document)
        ps qs := by
  rw [← forall₂_flags_iff (S := fun m n => R m.document n.document) hps hqs, ← hR.properties_iff,
    ← hR.requiredNames_iff,
    hR.document_iff_shape (a := .object f ps) (b := .object g qs) hf hg]
  simp [Node.slot, Node.facets, Node.kind, Node.requiredNames, Node.properties, flaggedNames, hR.str]

theorem union_iff (hf : f.Valid) (hg : g.Valid) (v w : Node) (vs ws : List Node) :
    R (Node.union f v vs).document (Node.union g w ws).document ↔ f.erased.Matches R g.erased ∧
      R v.document w.document ∧ List.Forall₂ (fun v w => R v.document w.document) vs ws := by
  rw [hR.document_iff_shape (a := .union f v vs) (b := .union g w ws) hf hg, ← hR.variants_iff]
  simp [Node.slot, Node.facets, Node.requiredNames, Node.properties, hR.list]

theorem document_iff_of_kind_ne (h : a.kind ≠ b.kind) :
    R a.document b.document ↔ a.erased.Matches R b.erased := by
  refine iff_of_false (fun hdoc => h (hR.kind_eq hdoc)) fun hmatch => h ?_
  rw [← a.kind_erased, ← b.kind_erased, hmatch.kind_eq]

/-- Two documents are equal if and only if their nodes are, but for what is erased. -/
theorem document_iff_matches (ha : a.Valid) (hb : b.Valid) :
    R a.document b.document ↔ a.erased.Matches R b.erased := by
  induction a using Node.induct generalizing b with
  | scalar k f =>
    cases ha with | scalar hf =>
    cases hb with
    | scalar hg => exact hR.scalar_iff hf hg k _
    | _ => exact hR.document_iff_of_kind_ne (by simp [Node.kind])
  | array f m ih =>
    cases ha with | array hf hm =>
    cases hb with
    | array hg hn => rw [hR.array_iff hf hg, ih hm hn, Node.erased, Node.erased, Node.Matches]
    | _ => exact hR.document_iff_of_kind_ne (by simp [Node.kind])
  | object f ps ih =>
    cases ha with | object hf hps hvalid =>
    cases hb with
    | object hg hqs hvalid' =>
      rw [hR.object_iff hf hg hps hqs, Node.erased, Node.erased, Node.Matches, propertiesMatch_iff, erasedProperties_eq,
        erasedProperties_eq, List.forall₂_map_left_iff, List.forall₂_map_right_iff]
      refine and_congr_right fun _ => forall₂_congr_mem fun p hp q hq => ?_
      rw [Node.matches_withRequired R (Node.required_erased ..), ih p hp (hvalid p hp) (hvalid' q hq)]
    | _ => exact hR.document_iff_of_kind_ne (by simp [Node.kind])
  | union f v vs ihv ih =>
    cases ha with | union hf hv hvalid =>
    cases hb with
    | union hg hw hvalid' =>
      rw [hR.union_iff hf hg, Node.erased, Node.erased, Node.Matches, variantsMatch_iff, erasedVariants_eq,
        erasedVariants_eq, List.forall₂_map_left_iff, List.forall₂_map_right_iff, ihv hv hw]
      refine and_congr_right fun _ => and_congr_right fun _ => forall₂_congr_mem fun v hv w hw => ?_
      exact ih v hv (hvalid v hv) (hvalid' w hw)
    | _ => exact hR.document_iff_of_kind_ne (by simp [Node.kind])

end Value.Equality

/-! ## Equal documents -/

theorem Constraints.matches_eq : Constraints.Matches Eq = Eq := by
  ext c d
  cases c
  cases d
  simp [matches_iff, Entries.rel_eq]

theorem Requirement.matches_eq : Requirement.Matches Eq = Eq := by
  ext r s
  cases r
  cases s
  simp only [matches_iff, Entries.rel_eq, Requirement.mk.injEq]
  tauto

theorem Facets.matches_eq (f g : Facets) : f.Matches Eq g ↔ f = g := by
  cases f
  cases g
  simp [matches_iff, Entries.rel_eq, Constraints.matches_eq, Requirement.matches_eq]

theorem Node.matches_eq (a b : Node) : a.Matches Eq b ↔ a = b := by
  induction a using Node.induct generalizing b with
  | scalar k f => cases b <;> simp [Matches, Facets.matches_eq]
  | array f m ih => cases b <;> simp [Matches, Facets.matches_eq, ih]
  | object f ps ih =>
    cases b with
    | object g qs =>
      have hps : List.Forall₂ (fun p q => p.1 = q.1 ∧ p.2.Matches Eq q.2) ps qs ↔ List.Forall₂ Eq ps qs :=
        forall₂_congr_mem fun p hp q _ => by rw [ih p hp, Prod.ext_iff]
      rw [Matches, Facets.matches_eq, propertiesMatch_iff, hps, List.forall₂_eq_eq_eq]
      simp
    | _ => simp [Matches]
  | union f v vs ihv ih =>
    cases b with
    | union g w ws =>
      have hvs : List.Forall₂ (Matches Eq) vs ws ↔ List.Forall₂ Eq vs ws :=
        forall₂_congr_mem fun v hv w _ => ih v hv w
      rw [Matches, Facets.matches_eq, variantsMatch_iff, hvs, List.forall₂_eq_eq_eq, ihv]
      simp
    | _ => simp [Matches]

/-- Valid schemas have the same document if and only if they are the same but for what is erased, and documents equal as
ordered dictionaries if and only if their values are so at every place. -/
theorem document_eq_iff_erased (ha : a.Valid) (hb : b.Valid) :
    (a.document = b.document ↔ a.erased = b.erased) ∧
      (a.document.sameInOrder b.document = true ↔
        a.erased.Matches (fun v w => v.sameInOrder w = true) b.erased) := by
  constructor
  · rw [Value.equality_eq.document_iff_matches ha hb, Node.matches_eq]
  · exact Value.equality_sameInOrder.document_iff_matches ha hb

/-- Orders, with everything that is erased. -/
def tracedOrder : Node :=
  .object { required := true, format := some (.str ""), constraints := some {},
            requirements := [{ kind := "required_with", fields := ["street", "city"], value := some (.int 1) }],
            sourceType := some "Order", circularRef := some "Order" }
    [("lines", .array { required := true } (.string { required := true, description := some (.str "") })),
      ("note", .union {} (.string { required := true })
        [.integer { constraints := some { minimum := some (.int 1) } }])]

def plainOrder : Node :=
  .object { requirements := [{ kind := "required_with", fields := ["street", "city"] }] }
    [("lines", .array { required := true } .string),
      ("note", .union {} .string [.integer { constraints := some { minimum := some (.int 1) } }])]

/-- Schemas that differ in every erased facet have one document. -/
theorem document_tracedOrder :
    tracedOrder.Valid ∧ plainOrder.Valid ∧ tracedOrder.document = plainOrder.document := by
  have ⟨htraced, hplain⟩ : tracedOrder.Valid ∧ plainOrder.Valid := by
    constructor
    all_goals
      refine .object ⟨by simp, by simp⟩ (by decide) (List.forall_mem_cons.2 ⟨?lines, List.forall_mem_singleton.2 ?note⟩)
      case lines => exact .array ⟨by simp, by simp⟩ (.scalar ⟨by simp, by simp⟩)
      case note =>
        exact .union ⟨by simp, by simp⟩ (.scalar ⟨by simp, by simp⟩)
          (List.forall_mem_singleton.2 (.scalar ⟨by simp, by simp⟩))
  exact ⟨htraced, hplain, (document_eq_iff_erased htraced hplain).1.2 rfl⟩

end ApiSchema
