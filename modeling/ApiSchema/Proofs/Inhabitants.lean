import ApiSchema.TypeExpr.Schema
import Mathlib.Data.List.Forall2

/-!
# Values of types

The schema of a type accepts exactly the values of the type (`accepts_toSchema_iff`), for types of data: primitive
types, collections, literals of one kind, wrappers, and unions with nothing only as one of several members.

What a type means (`Inhabits`) says nothing about schemas, and what a schema accepts (`Node.accepts`) says nothing
about types. For each form of a type, `Exact` is carried from its arguments to the type; nothing is accepted by a
flag of the schema of a union, and inhabits it as a member, which `inhabits_union_members` joins.
-/
namespace ApiSchema

variable {e : TypeExpr} {name : String}

/-! ## Values -/

/-- JSON values; whole numbers are apart from the others. -/
inductive Json where
  | null
  | bool (b : Bool)
  | int (n : Int)
  | float (x : Double)
  | str (s : String)
  | array (vs : List Json)
  | object (members : List (String × Json))

namespace Json

mutual

/-- The literal that a JSON value is. -/
def value : Json → Value
  | .null => .null
  | .bool b => .bool b
  | .int n => .int n
  | .float x => .float x
  | .str s => .str s
  | .array vs => .list (values vs)
  | .object ms => .dict (memberValues ms)

def values : List Json → List Value
  | [] => []
  | v :: vs => value v :: values vs

def memberValues : List (String × Json) → List (Value × Value)
  | [] => []
  | (name, v) :: ms => (.str name, value v) :: memberValues ms

end

/-- Whether a value that is not null is of a kind; a boolean is no number. -/
def isOf : Kind → Json → Bool
  | .scalar .string, .str _ | .scalar .integer, .int _ | .scalar .number, .int _ | .scalar .number, .float _
  | .scalar .boolean, .bool _ | .array, .array _ | .object, .object _ => true
  | _, _ => false

end Json

namespace Node

/-- Whether a value is one of the enumerated ones, if there are any. -/
def enumerates (f : Facets) (v : Json) : Bool := f.enumValues.all fun ws => ws.any (Value.same · v.value)

mutual

/-- Whether a schema accepts a value. What an object holds is left open. -/
def accepts : Node → Json → Bool
  | .scalar _ f, .null => f.nullable
  | .scalar k f, v => v.isOf (.scalar k) && enumerates f v
  | .array f _, .null => f.nullable
  | .array f items, .array vs => enumerates f (.array vs) && vs.all fun v => accepts items v
  | .array _ _, _ => false
  | .object f _, .null => f.nullable
  | .object f _, v => v.isOf .object && enumerates f v
  | .union f n ns, .null => f.nullable || accepts n .null || acceptsAny ns .null
  | .union f n ns, v => enumerates f v && (accepts n v || acceptsAny ns v)

/-- Whether one of some schemas accepts a value. -/
def acceptsAny : List Node → Json → Bool
  | [], _ => false
  | n :: ns, v => accepts n v || acceptsAny ns v

end

theorem accepts_arrayOf (n : Node) (v : Json) :
    (arrayOf n).accepts v = true ↔ ∃ vs, v = .array vs ∧ ∀ w ∈ vs, n.accepts w = true := by
  cases v <;> simp [arrayOf, accepts, enumerates]

theorem acceptsAny_iff (ns : List Node) (v : Json) : acceptsAny ns v = true ↔ ∃ n ∈ ns, n.accepts v = true := by
  induction ns with
  | nil => simp [acceptsAny]
  | cons n ns ih => simp [acceptsAny, ih]

theorem accepts_union (n : Node) (ns : List Node) (v : Json) :
    (Node.union {} n ns).accepts v = true ↔ ∃ m ∈ n :: ns, m.accepts v = true := by
  cases v <;> simp [accepts, acceptsAny_iff, enumerates]

theorem accepts_asNullable (n : Node) (v : Json) : n.asNullable.accepts v = true ↔ v = .null ∨ n.accepts v = true := by
  cases n <;> cases v <;> simp [asNullable, mapFacets, withFacets, facets, accepts, enumerates]

end Node

namespace TypeExpr

/-! ## Types -/

def primitiveHeads : List String := ["str", "int", "float", "bool"]

def collectionHeads : List String := ["list", "List", "Sequence", "set"]

def wrapperHeads : List String := ["Annotated", "Final"]

def unionHeads : List String := ["Union", barName]

def dataHeads : List String :=
  primitiveHeads ++ collectionHeads ++ wrapperHeads ++ unionHeads ++ ["tuple", "Literal", "Optional"]

/-- Literals of one kind, with nothing among them or not. -/
def Uniform (values : List Value) : Prop :=
  (∀ w ∈ values, w = .null ∨ ∃ s, w = .str s) ∨ (∀ w ∈ values, w = .null ∨ ∃ n, w = .int n) ∨
    ∀ w ∈ values, w = .null ∨ ∃ b, w = .bool b

/-- Types of data. Nothing is only a member of a union, beside at least one other member. -/
inductive OfData : TypeExpr → Prop
  | primitive {name : String} (hn : name ∈ primitiveHeads) : OfData (named name)
  | collection {name : String} {e : TypeExpr} (hn : name ∈ collectionHeads) (he : OfData e) : OfData (.mk name [e] [])
  | tuple {e : TypeExpr} (he : OfData e) : OfData (.mk "tuple" [e, named ellipsisName] [])
  | literal {values : List Value} (hv : Uniform values) : OfData (.mk "Literal" [] values)
  | wrapped {name : String} {e : TypeExpr} (hn : name ∈ wrapperHeads) (he : OfData e) (metadata : List TypeExpr) :
    OfData (.mk name (e :: metadata) [])
  | optional {e : TypeExpr} (he : OfData e) : OfData (.mk "Optional" [e] [])
  | union {name : String} {args : List TypeExpr} (hn : name ∈ unionHeads) (hsome : ∃ m ∈ args, m.isNone = false)
    (hargs : ∀ m ∈ args, m.isNone = false → OfData m) : OfData (.mk name args [])

/-- The values of a type. -/
inductive Inhabits : TypeExpr → Json → Prop
  | str (s : String) : Inhabits (named "str") (.str s)
  | int (n : Int) : Inhabits (named "int") (.int n)
  | whole (n : Int) : Inhabits (named "float") (.int n)
  | float (x : Double) : Inhabits (named "float") (.float x)
  | bool (b : Bool) : Inhabits (named "bool") (.bool b)
  | none {e : TypeExpr} (he : e.isNone = true) : Inhabits e .null
  | collection {name : String} {e : TypeExpr} {vs : List Json} (hn : name ∈ collectionHeads)
    (h : ∀ v ∈ vs, Inhabits e v) : Inhabits (.mk name [e] []) (.array vs)
  | tuple {e : TypeExpr} {vs : List Json} (h : ∀ v ∈ vs, Inhabits e v) :
    Inhabits (.mk "tuple" [e, named ellipsisName] []) (.array vs)
  | literal {values : List Value} {v : Json} (h : v.value ∈ values) : Inhabits (.mk "Literal" [] values) v
  | wrapped {name : String} {e : TypeExpr} {metadata : List TypeExpr} {v : Json} (hn : name ∈ wrapperHeads)
    (h : Inhabits e v) : Inhabits (.mk name (e :: metadata) []) v
  | missing (e : TypeExpr) : Inhabits (.mk "Optional" [e] []) .null
  | optional {e : TypeExpr} {v : Json} (h : Inhabits e v) : Inhabits (.mk "Optional" [e] []) v
  | member {name : String} {args : List TypeExpr} {m : TypeExpr} {v : Json} (hn : name ∈ unionHeads)
    (hm : m ∈ args) (h : Inhabits m v) : Inhabits (.mk name args []) v

theorem not_of_dataHeads : ∀ name ∈ dataHeads, (named name).isNone = false ∧ (named name).isEllipsis = false := by
  decide

theorem OfData.name_mem (he : OfData e) : e.name ∈ dataHeads := by
  cases he with
  | primitive hn => simp [dataHeads, named, name, hn]
  | collection hn _ => simp [dataHeads, name, hn]
  | tuple _ | literal _ => simp [dataHeads, name]
  | wrapped hn _ _ => simp [dataHeads, name, hn]
  | optional _ => simp [dataHeads, name]
  | union hn _ _ => simp [dataHeads, name, hn]

theorem OfData.isEllipsis_eq_false (he : OfData e) : e.isEllipsis = false :=
  (not_of_dataHeads _ he.name_mem).2

/-! ### Values by the form of a type -/

theorem inhabits_collection (hn : name ∈ collectionHeads) (e : TypeExpr) (v : Json) :
    Inhabits (.mk name [e] []) v ↔ ∃ vs, v = .array vs ∧ ∀ w ∈ vs, Inhabits e w := by
  have hheads : ∀ name ∈ collectionHeads, (named name).isNone = false ∧ name ∉ wrapperHeads ∧ name ∉ unionHeads ∧
      name ≠ "Optional" := by decide
  obtain ⟨hnone, hwrapper, hunion, hoptional⟩ := hheads name hn
  constructor
  · intro h
    cases h with
    | none he => exact absurd (hnone.symm.trans he) Bool.false_ne_true
    | collection _ h => exact ⟨_, rfl, h⟩
    | wrapped hw _ => exact absurd hw hwrapper
    | missing | optional _ => exact absurd rfl hoptional
    | member hu _ _ => exact absurd hu hunion
  · rintro ⟨vs, rfl, h⟩
    exact .collection hn h

theorem inhabits_tuple (hn : name = "tuple") (e : TypeExpr) (v : Json) :
    Inhabits (.mk name [e, named ellipsisName] []) v ↔ ∃ vs, v = .array vs ∧ ∀ w ∈ vs, Inhabits e w := by
  constructor
  · intro h
    cases h with
    | none he =>
      subst hn
      cases he
    | tuple h => exact ⟨_, rfl, h⟩
    | wrapped hw _ => exact absurd (hn ▸ hw) (by decide)
    | member hu _ _ => exact absurd (hn ▸ hu) (by decide)
  · rintro ⟨vs, rfl, h⟩
    exact hn ▸ .tuple h

theorem inhabits_literal (hn : name = "Literal") (values : List Value) (v : Json) :
    Inhabits (.mk name [] values) v ↔ v.value ∈ values := by
  constructor
  · intro h
    cases h with
    | none he =>
      subst hn
      cases he
    | literal h => exact h
    | member hu hm _ => cases hm
    | str _ | int _ | whole _ | float _ | bool _ => exact absurd hn (by decide)
  · exact fun h => hn ▸ .literal h

theorem inhabits_wrapped (hn : name ∈ wrapperHeads) (e : TypeExpr) (metadata : List TypeExpr) (v : Json) :
    Inhabits (.mk name (e :: metadata) []) v ↔ Inhabits e v := by
  have hheads : ∀ name ∈ wrapperHeads, (named name).isNone = false ∧ name ∉ collectionHeads ∧ name ∉ unionHeads ∧
      name ≠ "Optional" ∧ name ≠ "tuple" := by decide
  obtain ⟨hnone, hcollection, hunion, hoptional, htuple⟩ := hheads name hn
  constructor
  · intro h
    cases h with
    | none he => exact absurd (hnone.symm.trans he) Bool.false_ne_true
    | collection hc _ => exact absurd hc hcollection
    | tuple _ => exact absurd rfl htuple
    | wrapped _ h => exact h
    | missing | optional _ => exact absurd rfl hoptional
    | member hu _ _ => exact absurd hu hunion
  · exact .wrapped hn

theorem inhabits_optional (hn : name = "Optional") (e : TypeExpr) (v : Json) :
    Inhabits (.mk name [e] []) v ↔ v = .null ∨ Inhabits e v := by
  constructor
  · intro h
    cases h with
    | none he => exact .inl rfl
    | collection hc _ => exact absurd (hn ▸ hc) (by decide)
    | wrapped hw _ => exact absurd (hn ▸ hw) (by decide)
    | missing => exact .inl rfl
    | optional h => exact .inr h
    | member hu _ _ => exact absurd (hn ▸ hu) (by decide)
  · rintro (rfl | h)
    · exact hn ▸ .missing e
    · exact hn ▸ .optional h

theorem inhabits_union (hn : name ∈ unionHeads) (args : List TypeExpr) (v : Json) :
    Inhabits (.mk name args []) v ↔ ∃ m ∈ args, Inhabits m v := by
  have hheads : ∀ name ∈ unionHeads, (named name).isNone = false ∧ name ∉ collectionHeads ∧ name ∉ wrapperHeads ∧
      name ≠ "Optional" ∧ name ≠ "tuple" ∧ name ∉ primitiveHeads ∧ name ≠ "Literal" := by decide
  obtain ⟨hnone, hcollection, hwrapper, hoptional, htuple, hprimitive, hliteral⟩ := hheads name hn
  constructor
  · intro h
    cases h with
    | member _ hm h => exact ⟨_, hm, h⟩
    | none he => exact absurd (hnone.symm.trans he) Bool.false_ne_true
    | collection hc _ => exact absurd hc hcollection
    | wrapped hw _ => exact absurd hw hwrapper
    | tuple _ => exact absurd rfl htuple
    | literal _ => exact absurd rfl hliteral
    | missing | optional _ => exact absurd rfl hoptional
    | str _ | int _ | whole _ | float _ | bool _ => exact absurd hprimitive (by decide)
  · rintro ⟨m, hm, h⟩
    exact .member hn hm h

theorem inhabits_primitive (hn : name ∈ primitiveHeads) (v : Json) :
    Inhabits (named name) v ↔ name = "str" ∧ (∃ s, v = .str s) ∨ name = "int" ∧ (∃ n, v = .int n) ∨
      name = "float" ∧ ((∃ n, v = .int n) ∨ ∃ x, v = .float x) ∨ name = "bool" ∧ ∃ b, v = .bool b := by
  have hheads : ∀ name ∈ primitiveHeads, (named name).isNone = false ∧ name ≠ "Literal" := by decide
  constructor
  · intro h
    cases h with
    | str s => exact .inl ⟨rfl, s, rfl⟩
    | int n => exact .inr (.inl ⟨rfl, n, rfl⟩)
    | whole n => exact .inr (.inr (.inl ⟨rfl, .inl ⟨n, rfl⟩⟩))
    | float x => exact .inr (.inr (.inl ⟨rfl, .inr ⟨x, rfl⟩⟩))
    | bool b => exact .inr (.inr (.inr ⟨rfl, b, rfl⟩))
    | none he => exact absurd ((hheads name hn).1.symm.trans he) Bool.false_ne_true
    | literal h => exact absurd rfl (hheads _ hn).2
    | member _ hm _ => cases hm
  · rintro (⟨rfl, s, rfl⟩ | ⟨rfl, n, rfl⟩ | ⟨rfl, ⟨n, rfl⟩ | ⟨x, rfl⟩⟩ | ⟨rfl, b, rfl⟩)
    · exact .str s
    · exact .int n
    · exact .whole n
    · exact .float x
    · exact .bool b

theorem inhabits_none (he : e.isNone = true) (v : Json) : Inhabits e v ↔ v = .null := by
  have hname : ∀ {name : String}, (named name).isNone = true → name ∉ dataHeads := fun h hm =>
    absurd ((not_of_dataHeads _ hm).1.symm.trans h) Bool.false_ne_true
  constructor
  · intro h
    cases h with
    | none _ | missing => rfl
    | str _ | int _ | whole _ | float _ | bool _ | tuple _ | literal _ | optional _ => cases he
    | collection hn _ | wrapped hn _ | member hn _ _ => exact absurd (by simp [dataHeads, hn]) (hname he)
  · rintro rfl
    exact .none he

/-- Nothing inhabits a union just if a member was left out, or through another member. -/
theorem inhabits_union_members (hn : name ∈ unionHeads) (args : List TypeExpr) (v : Json) :
    Inhabits (.mk name args []) v ↔
      (members args).length ≠ args.length ∧ v = .null ∨ ∃ m ∈ members args, Inhabits m v := by
  have hlength : (members args).length ≠ args.length ↔ ∃ m ∈ args, m.isNone = true := by
    rw [members, ne_eq, List.length_filter_eq_length_iff]
    simp [Classical.not_forall]
  rw [inhabits_union hn, hlength]
  constructor
  · rintro ⟨m, hm, h⟩
    cases hnone : m.isNone with
    | true => exact .inl ⟨⟨m, hm, hnone⟩, (inhabits_none hnone v).1 h⟩
    | false => exact .inr ⟨m, List.mem_filter.2 ⟨hm, by simp [hnone]⟩, h⟩
  · rintro (⟨⟨m, hm, hnone⟩, rfl⟩ | ⟨m, hm, h⟩)
    · exact ⟨m, hm, .none hnone⟩
    · exact ⟨m, (List.mem_filter.1 hm).1, h⟩

theorem accepts_nullableIf (b : Bool) (n : Node) (v : Json) :
    (nullableIf b n).accepts v = true ↔ b = true ∧ v = .null ∨ n.accepts v = true := by
  cases b
  · simp [nullableIf]
  · simp [nullableIf, Node.accepts_asNullable]

/-! ## Schemas of types -/

/-- The schema of a type, as far as no resolver knows a name, accepts exactly its values. -/
structure Exact (e : TypeExpr) (n : Node) : Prop where
  schema : toSchema (m := Attempt) {} none e = .ok n
  values : ∀ v, Inhabits e v ↔ n.accepts v = true

variable {values : List Value}

theorem mem_present {w : Value} : w ∈ values.filter (!·.isNull) ↔ w ∈ values ∧ w ≠ .null := by
  rw [List.mem_filter]
  cases w <;> simp [Value.isNull]

/-- An enumeration of values of one kind accepts just these values. -/
theorem accepts_enumeration {k : Scalar} {P : Value → Prop} (hP : ∀ w ∈ values, w = .null ∨ P w)
    (hk : ∀ w, P w → kindOfValue (some w) = k) (hv : ∀ v : Json, v.isOf (.scalar k) = true ↔ P v.value)
    (hsame : ∀ v w, P v → P w → (Value.same v w = true ↔ v = w)) (v : Json) :
    (enumeration values).accepts v = true ↔ v.value ∈ values := by
  have hpresent : ∀ w ∈ values.filter (!·.isNull), P w := fun w hw =>
    (hP w (mem_present.1 hw).1).resolve_left (mem_present.1 hw).2
  by_cases hnull : v = .null
  · subst hnull
    change ((values.filter (!·.isNull)).length != values.length) = true ↔ Value.null ∈ values
    rw [bne_iff_ne, ne_eq, List.length_filter_eq_length_iff]
    simp only [Bool.not_eq_true', Classical.not_forall]
    constructor
    · rintro ⟨w, hw, hn⟩
      cases w <;> simp_all [Value.isNull]
    · exact fun h => ⟨_, h, by simp [Value.isNull]⟩
  · have haccepts : (enumeration values).accepts v =
        (v.isOf (.scalar (kindOfValue (values.filter (!·.isNull)).head?)) &&
          (values.filter (!·.isNull)).any (Value.same · v.value)) := by
      cases v with
      | null => exact absurd rfl hnull
      | _ => rfl
    have hvalue : v.value ≠ .null := by cases v <;> simp_all [Json.value]
    rw [haccepts, Bool.and_eq_true, List.any_eq_true]
    constructor
    · rintro ⟨hkind, w, hw, hs⟩
      cases hp : values.filter (!·.isNull) with
      | nil => rw [hp] at hw; cases hw
      | cons u us =>
        rw [hp] at hkind
        have hu : P u := hpresent u (hp ▸ List.mem_cons_self)
        rw [List.head?_cons, hk u hu, hv] at hkind
        rw [← (hsame w v.value (hpresent w hw) hkind).1 hs]
        exact (mem_present.1 hw).1
    · intro h
      have hmem := mem_present.2 ⟨h, hvalue⟩
      refine ⟨?_, v.value, hmem, (hsame _ _ (hpresent _ hmem) (hpresent _ hmem)).2 rfl⟩
      cases hp : values.filter (!·.isNull) with
      | nil => rw [hp] at hmem; cases hmem
      | cons u us =>
        have hu : P u := hpresent u (hp ▸ List.mem_cons_self)
        rw [List.head?_cons, hk u hu, hv]
        exact hpresent _ hmem

namespace Exact

theorem primitive (hn : name ∈ primitiveHeads) : ∃ n, Exact (named name) n := by
  have hvalues := inhabits_primitive hn
  simp only [primitiveHeads, List.mem_cons, List.not_mem_nil, or_false] at hn
  rcases hn with rfl | rfl | rfl | rfl
  · refine ⟨.scalar .string {}, rfl, fun v => (hvalues v).trans ?_⟩
    cases v <;> simp [Node.accepts, Json.isOf, Node.enumerates]
  · refine ⟨.scalar .integer {}, rfl, fun v => (hvalues v).trans ?_⟩
    cases v <;> simp [Node.accepts, Json.isOf, Node.enumerates]
  · refine ⟨.scalar .number { format := some (.str "float") }, rfl, fun v => (hvalues v).trans ?_⟩
    cases v <;> simp [Node.accepts, Json.isOf, Node.enumerates]
  · refine ⟨.scalar .boolean {}, rfl, fun v => (hvalues v).trans ?_⟩
    cases v <;> simp [Node.accepts, Json.isOf, Node.enumerates]

theorem literal (hv : Uniform values) : Exact (.mk "Literal" [] values) (enumeration values) where
  schema := rfl
  values v := by
    rw [inhabits_literal rfl]
    rcases hv with h | h | h
    · refine (accepts_enumeration (k := .string) h ?_ ?_ ?_ v).symm
      · rintro _ ⟨s, rfl⟩
        rfl
      · intro v
        cases v <;> simp [Json.isOf, Json.value]
      · rintro _ _ ⟨s, rfl⟩ ⟨s', rfl⟩
        simp [Value.same]
    · refine (accepts_enumeration (k := .integer) h ?_ ?_ ?_ v).symm
      · rintro _ ⟨n, rfl⟩
        rfl
      · intro v
        cases v <;> simp [Json.isOf, Json.value]
      · rintro _ _ ⟨n, rfl⟩ ⟨n', rfl⟩
        simp [Value.same, Value.sameNumber, Value.numeric?, Value.Numeric.same]
    · refine (accepts_enumeration (k := .boolean) h ?_ ?_ ?_ v).symm
      · rintro _ ⟨b, rfl⟩
        rfl
      · intro v
        cases v <;> simp [Json.isOf, Json.value]
      · rintro _ _ ⟨b, rfl⟩ ⟨b', rfl⟩
        cases b <;> cases b' <;> simp [Value.same, Value.sameNumber, Value.numeric?, Value.Numeric.same]

variable {e : TypeExpr} {n : Node}

/-- A type that is read as a list of its first part. -/
theorem array {t : TypeExpr} (rest : List TypeExpr) (hplain : toSchema (m := Attempt) {} none t =
      schemaElement {} none (e :: rest) >>= fun n => return Node.arrayOf n)
    (hvalues : ∀ v, Inhabits t v ↔ ∃ vs, v = .array vs ∧ ∀ w ∈ vs, Inhabits e w) (he : e.isEllipsis = false)
    (h : Exact e n) : Exact t (Node.arrayOf n) where
  schema := by
    rw [hplain, schemaElement, he]
    simp only [Bool.false_eq_true, if_false, h.schema]
    rfl
  values v := by
    rw [hvalues, Node.accepts_arrayOf]
    simp only [h.values]

theorem collection (hn : name ∈ collectionHeads) (he : e.isEllipsis = false) (h : Exact e n) :
    Exact (.mk name [e] []) (Node.arrayOf n) := by
  refine array [] ?_ (inhabits_collection hn e) he h
  simp only [collectionHeads, List.mem_cons, List.not_mem_nil, or_false] at hn
  rcases hn with rfl | rfl | rfl | rfl <;> rfl

theorem tuple (he : e.isEllipsis = false) (h : Exact e n) :
    Exact (.mk "tuple" [e, named ellipsisName] []) (Node.arrayOf n) :=
  array _ rfl (inhabits_tuple rfl e) he h

theorem wrapped (hn : name ∈ wrapperHeads) (metadata : List TypeExpr) (h : Exact e n) :
    Exact (.mk name (e :: metadata) []) n where
  schema := by
    rw [← h.schema]
    simp only [wrapperHeads, List.mem_cons, List.not_mem_nil, or_false] at hn
    rcases hn with rfl | rfl <;> rfl
  values v := by rw [inhabits_wrapped hn, h.values]

theorem optional (h : Exact e n) : Exact (.mk "Optional" [e] []) n.asNullable where
  schema := by
    have hplain : toSchema (m := Attempt) {} none (.mk "Optional" [e] []) =
        toSchema {} none e >>= fun n => return Node.asNullable n := rfl
    rw [hplain, h.schema]
    rfl
  values v := by rw [inhabits_optional rfl, Node.accepts_asNullable, h.values]

theorem schemaMember_eq {args : List TypeExpr} (hm : members args = [e]) (h : Exact e n) :
    schemaMember (m := Attempt) {} none args = .ok n := by
  induction args with
  | nil => cases hm
  | cons a args ih =>
    cases ha : a.isNone with
    | true =>
      rw [schemaMember, if_pos ha]
      exact ih (by rwa [members, List.filter_cons_of_neg (by simp [ha])] at hm)
    | false =>
      rw [members, List.filter_cons_of_pos (by simp [ha])] at hm
      rw [schemaMember, if_neg (by simp [ha]), (List.cons.inj hm).1, h.schema]

theorem schemaMembers_eq {args : List TypeExpr} (hargs : ∀ a ∈ members args, ∃ n, Exact a n) :
    ∃ ns, schemaMembers (m := Attempt) {} none args = .ok ns ∧ List.Forall₂ Exact (members args) ns := by
  induction args with
  | nil => exact ⟨[], rfl, .nil⟩
  | cons a args ih =>
    cases ha : a.isNone with
    | true =>
      rw [members, List.filter_cons_of_neg (by simp [ha])] at hargs ⊢
      rw [schemaMembers, if_pos ha]
      exact ih hargs
    | false =>
      rw [members, List.filter_cons_of_pos (by simp [ha])] at hargs ⊢
      obtain ⟨n, hn⟩ := hargs a List.mem_cons_self
      obtain ⟨ns, hns, hall⟩ := ih (List.forall_mem_cons.1 hargs).2
      refine ⟨n :: ns, ?_, .cons hn hall⟩
      rw [schemaMembers, if_neg (by simp [ha]), hn.schema, hns]
      rfl

theorem exists_inhabits_iff {es : List TypeExpr} {ns : List Node} (h : List.Forall₂ Exact es ns) (v : Json) :
    (∃ e ∈ es, Inhabits e v) ↔ ∃ n ∈ ns, n.accepts v = true := by
  induction h with
  | nil => simp
  | cons h _ ih => simp only [List.exists_mem_cons_iff, h.values, ih]

theorem union {name : String} {args : List TypeExpr} (hn : name ∈ unionHeads) (hsome : members args ≠ [])
    (hargs : ∀ a ∈ members args, ∃ n, Exact a n) : ∃ n, Exact (.mk name args []) n := by
  have hwrapping : ∀ name ∈ unionHeads, ∀ count, wrapping name count = .union := by
    intro name hn count
    simp only [unionHeads, List.mem_cons, List.not_mem_nil, or_false] at hn
    rcases hn with rfl | rfl <;> rfl
  cases hm : members args with
  | nil => exact absurd hm hsome
  | cons e rest =>
    cases rest with
    | nil =>
      obtain ⟨n, h⟩ := hargs e (hm ▸ List.mem_cons_self)
      refine ⟨nullableIf (args.length != 1) n, ?_, fun v => ?_⟩
      · rw [toSchema, hwrapping name hn]
        simp only [hm, schemaMember_eq hm h]
        rfl
      · rw [inhabits_union_members hn, accepts_nullableIf, hm, bne_iff_ne, ← h.values]
        simp [eq_comm]
    | cons e' rest =>
      obtain ⟨ns, hns, hall⟩ := schemaMembers_eq hargs
      rw [hm] at hall
      cases hall with
      | cons h hall =>
        rename_i n ns
        refine ⟨nullableIf ((members args).length != args.length) (.union {} n ns), ?_, fun v => ?_⟩
        · rw [toSchema, hwrapping name hn]
          simp only [hm, hns]
          rfl
        · rw [inhabits_union_members hn, accepts_nullableIf, bne_iff_ne, hm, Node.accepts_union]
          exact or_congr_right (exists_inhabits_iff (.cons h hall) v)

end Exact

theorem OfData.exists_exact (he : OfData e) : ∃ n, Exact e n := by
  induction he with
  | primitive hn => exact Exact.primitive hn
  | collection hn he ih =>
    obtain ⟨n, h⟩ := ih
    exact ⟨_, h.collection hn he.isEllipsis_eq_false⟩
  | tuple he ih =>
    obtain ⟨n, h⟩ := ih
    exact ⟨_, h.tuple he.isEllipsis_eq_false⟩
  | literal hv => exact ⟨_, .literal hv⟩
  | wrapped hn _ metadata ih =>
    obtain ⟨n, h⟩ := ih
    exact ⟨n, h.wrapped hn metadata⟩
  | optional _ ih =>
    obtain ⟨n, h⟩ := ih
    exact ⟨_, h.optional⟩
  | @union name args hn hsome _ ih =>
    have hmem : ∀ a, a ∈ members args ↔ a ∈ args ∧ a.isNone = false := by simp [members]
    obtain ⟨a, ha, hnone⟩ := hsome
    refine Exact.union hn (List.ne_nil_of_mem ((hmem a).2 ⟨ha, hnone⟩)) fun a ha => ?_
    exact ih a ((hmem a).1 ha).1 ((hmem a).1 ha).2

/-- A type of data has a schema, with the tables as they are and no resolver, and the schema accepts exactly the
values of the type. -/
theorem accepts_toSchema_iff (he : OfData e) :
    ∃ n, toSchema (m := Attempt) {} none e = .ok n ∧ ∀ v : Json, Inhabits e v ↔ n.accepts v = true := by
  obtain ⟨n, h⟩ := he.exists_exact
  exact ⟨n, h.schema, h.values⟩

/-- `Optional[list[Literal["a", None] | None | int]]`. -/
def optionalMixedList : TypeExpr :=
  .mk "Optional" [.mk "list" [.mk barName [.mk "Literal" [] [.str "a", .null], named "None", named "int"] []] []] []

theorem accepts_toSchema_optionalMixedList :
    OfData optionalMixedList ∧
      ∃ n, toSchema (m := Attempt) {} none optionalMixedList = .ok n ∧
        ∀ v : Json, Inhabits optionalMixedList v ↔ n.accepts v = true := by
  have h : OfData optionalMixedList := by
    refine .optional (.collection (by decide) (.union (by decide) ⟨named "int", by simp, by decide⟩ ?_))
    intro a ha hnone
    simp only [List.mem_cons, List.not_mem_nil, or_false] at ha
    rcases ha with rfl | rfl | rfl
    · exact .literal (.inl (by simp))
    · cases hnone
    · exact .primitive (by decide)
  exact ⟨h, accepts_toSchema_iff h⟩

end TypeExpr
end ApiSchema
