import ApiSchema.Proofs.Alike
import ApiSchema.Proofs.Readings
import ApiSchema.Proofs.Relator

/-!
# Types and fields in several runs

If the classes that a type names have related schemas in several runs, then so has the type, and so have
the declared fields of a class (`toSchema_rel`, `propertiesOf_rel`). Related means *shaped*: the nodes are
grown from leaves, and the description of each of them is a text, so that more can be said in it.
-/
namespace ApiSchema

open Source

variable {ι : Type} {α : Type}

/-! ## Shaped families -/

/-- The description, if there is one, is a text. -/
def Node.Worded (n : Node) : Prop := ∀ d, n.facets.description = some d → ∃ s, d = .str s

/-- Root maps keep the leaves. -/
def Steady (Leaf : (ι → Node) → Prop) : Prop := ∀ h ns, Retouch h → Leaf ns → Leaf fun i => h (ns i)

theorem Congruent.steady {L : (ι → Node) → Prop} (h : Congruent L) : Steady L := fun _ _ hh hn => h.retouch hh hn

/-- A grown family of nodes with texts as descriptions. -/
structure Shaped (Leaf : (ι → Node) → Prop) (ns : ι → Node) : Prop where
  grown : Grown Leaf ns
  worded : ∀ i, (ns i).Worded

namespace Shaped

variable {Leaf : (ι → Node) → Prop} {ns : ι → Node}

theorem const {n : Node} (h : n.Worded) : Shaped Leaf fun _ => n := ⟨Grown.formed.const n, fun _ => h⟩

theorem array {f : Facets} (hf : f.description = none) (h : Grown Leaf ns) :
    Shaped Leaf fun i => .array f (ns i) :=
  ⟨.array f h, fun _ d hd => by rw [Node.facets, hf] at hd; cases hd⟩

theorem object {f : Facets} (hf : f.description = none) {ps : Entries (ι → Node)} (h : ∀ p ∈ ps, Grown Leaf p.2) :
    Shaped Leaf fun i => .object f (ps.column i) :=
  ⟨.object f ps h, fun _ d hd => by rw [Node.facets, hf] at hd; cases hd⟩

theorem union {v : ι → Node} {vs : List (ι → Node)} (hv : Grown Leaf v) (h : ∀ w ∈ vs, Grown Leaf w) :
    Shaped Leaf fun i => .union {} (v i) (vs.map (· i)) :=
  ⟨.union {} hv h, fun _ _ hd => by cases hd⟩

theorem mapFacets (hs : Steady Leaf) (h : Shaped Leaf ns) {g : Facets → Facets}
    (hg : ∀ f, (g f).circularRef = f.circularRef) (hd : ∀ f, (g f).description = f.description) :
    Shaped Leaf fun i => (ns i).mapFacets g where
  grown := (Grown.congruent hs).retouch (Retouch.ofFacets (g := fun _ => g) fun _ => hg) h.grown
  worded i d := by
    rw [Node.mapFacets, Node.facets_withFacets, hd]
    exact h.worded i d

theorem asNullable (hs : Steady Leaf) (h : Shaped Leaf ns) : Shaped Leaf fun i => (ns i).asNullable :=
  h.mapFacets hs (fun _ => rfl) fun _ => rfl

end Shaped

theorem worded_of_none {n : Node} (h : n.facets.description = none) : n.Worded := by
  intro d hd
  rw [h] at hd
  cases hd

theorem worded_ofKind {kind : Kind} {format : Option Value} {n : Node}
    (h : (Draft.ofKind kind format).build = .ok n) : n.Worded := by
  refine worded_of_none ?_
  rcases kind with k | _ | _ | _ <;> cases h <;> rfl

/-! ## Types -/

section

variable {M : ι → Type → Type} [∀ i, Monad (M i)] [∀ i, MonadExceptOf Problem (M i)]
  [∀ i, MonadLiftT Inference (M i)] [∀ i, MonadLiftT Attempt (M i)] (𝓡 : Relator ι M)
  {Leaf : (ι → Node) → Prop}

/-- A primitive type that is a union. -/
def TypeTables.HasUnion (t : TypeTables) : Prop := ∃ name format, t.primitives.get? name = some (.union, format)

namespace TypeExpr

theorem namedSchema_rel {t : TypeTables} (ht : t.HasUnion → 𝓡.Meets (.shape .unionWithoutVariants))
    {resolve : (i : ι) → String → M i (Option Node)}
    (hr : ∀ name, 𝓡.Rel (Options (Shaped Leaf)) fun i => resolve i name) (name : String) :
    𝓡.Rel (Shaped Leaf) fun i => namedSchema t (some (resolve i)) name := by
  unfold namedSchema
  dsimp only
  split
  · rename_i kind format hget
    refine 𝓡.mono (𝓡.triedSame (P := Node.Worded) ?_ ?_) ?_
    · intro n hn
      cases hb : (Draft.ofKind kind (format.map Value.str)).build with
      | error e => rw [hb] at hn; cases hn
      | ok m =>
        rw [hb] at hn
        cases hn
        exact worded_ofKind hb
    · intro p hp
      obtain ⟨rfl, rfl⟩ := Shape.union_of_error hp
      exact ht ⟨_, _, hget⟩
    · rintro _ ⟨h⟩
      exact .const h
  · refine 𝓡.bind (hr name) fun v hv => ?_
    cases hv with
    | some h => exact 𝓡.pure h
    | none =>
      dsimp only
      split
      · exact 𝓡.pure (.const (worded_of_none rfl))
      · split
        · exact 𝓡.pure (.const (worded_of_none rfl))
        · exact 𝓡.pure (.const (worded_of_none rfl))

end TypeExpr

end

namespace TypeExpr

section

variable {M : ι → Type → Type} [∀ i, Monad (M i)] [∀ i, MonadLiftT Attempt (M i)] (𝓦 : Weave ι M)
  {Leaf : (ι → Node) → Prop} {t : TypeTables} {resolve : (i : ι) → Resolver (M i)}

variable (Leaf t resolve) in
/-- The names of types have shaped nodes. -/
structure Names : Prop where
  steady : Steady Leaf
  named : ∀ name, 𝓦.Rel (Shaped Leaf) fun i => namedSchema t (resolve i) name

variable {𝓦} in
mutual

theorem toSchema_rel (h : Names 𝓦 Leaf t resolve) :
    (e : TypeExpr) → 𝓦.Rel (Shaped Leaf) fun i => toSchema t (resolve i) e
  | .mk name args values => by
    simp only [toSchema]
    split
    · exact schemaAt_rel h _ args
    · exact 𝓦.bind (schemaAt_rel h 0 args) fun v hv => 𝓦.pure (hv.asNullable h.steady)
    · split
      · exact 𝓦.pure (.const (worded_of_none rfl))
      · refine 𝓦.bind (schemaMember_rel h args) fun v hv => 𝓦.pure ?_
        unfold nullableIf
        split
        · exact hv.asNullable h.steady
        · exact hv
      · refine 𝓦.bind (schemaMembers_rel h args) fun v hv => ?_
        obtain ⟨ws, hw⟩ := hv
        cases ws with
        | nil => exact 𝓦.pure (.const (worded_of_none rfl))
        | cons w ws =>
          have hu : Shaped Leaf fun i => .union {} (w i) (ws.map (· i)) :=
            .union (hw w List.mem_cons_self).grown fun u hu => (hw u (List.mem_cons_of_mem _ hu)).grown
          refine 𝓦.pure ?_
          unfold nullableIf
          split
          · exact hu.asNullable h.steady
          · exact hu
    · split
      · exact 𝓦.pure (.const (worded_of_none rfl))
      · split
        · exact 𝓦.pure (.const (worded_of_none rfl))
        · split
          · exact 𝓦.bind (schemaElement_rel h args) fun v hv => 𝓦.pure (.array rfl hv.grown)
          · split
            · exact 𝓦.pure (.const (worded_of_none rfl))
            · exact h.named name

theorem schemaAt_rel (h : Names 𝓦 Leaf t resolve) : (n : Nat) → (es : List TypeExpr) →
    𝓦.Rel (Shaped Leaf) fun i => schemaAt t (resolve i) n es
  | _, [] => by
    simp only [schemaAt]
    exact 𝓦.pure (.const (worded_of_none rfl))
  | 0, e :: _ => by
    simp only [schemaAt]
    exact toSchema_rel h e
  | n + 1, _ :: es => by
    simp only [schemaAt]
    exact schemaAt_rel h n es

theorem schemaMember_rel (h : Names 𝓦 Leaf t resolve) : (es : List TypeExpr) →
    𝓦.Rel (Shaped Leaf) fun i => schemaMember t (resolve i) es
  | [] => by
    simp only [schemaMember]
    exact 𝓦.pure (.const (worded_of_none rfl))
  | e :: es => by
    simp only [schemaMember]
    split
    · exact schemaMember_rel h es
    · exact toSchema_rel h e

theorem schemaMembers_rel (h : Names 𝓦 Leaf t resolve) : (es : List TypeExpr) →
    𝓦.Rel (Listed (Shaped Leaf)) fun i => schemaMembers t (resolve i) es
  | [] => by
    simp only [schemaMembers]
    exact 𝓦.pure (.intro [] nofun)
  | e :: es => by
    simp only [schemaMembers]
    split
    · exact schemaMembers_rel h es
    · refine 𝓦.bind (toSchema_rel h e) fun v hv => 𝓦.bind (schemaMembers_rel h es) fun vs hvs => ?_
      obtain ⟨ws, hw⟩ := hvs
      exact 𝓦.pure (.intro (v :: ws) (List.forall_mem_cons.2 ⟨hv, hw⟩))

theorem schemaElement_rel (h : Names 𝓦 Leaf t resolve) : (es : List TypeExpr) →
    𝓦.Rel (Shaped Leaf) fun i => schemaElement t (resolve i) es
  | [] => by
    simp only [schemaElement]
    exact 𝓦.pure (.const (worded_of_none rfl))
  | e :: es => by
    simp only [schemaElement]
    split
    · exact schemaElement_rel h es
    · exact toSchema_rel h e

end

/-- A text without a type that can be read has a schema of its own. -/
theorem schemaOf_rel (hs : Steady Leaf) (hn : ∀ name, 𝓦.Rel (Shaped Leaf) fun i => namedSchema t (resolve i) name)
    (e : Option TypeExpr) : 𝓦.Rel (Shaped Leaf) fun i => schemaOf t (resolve i) e := by
  cases e with
  | none => exact 𝓦.pure (.const (worded_of_none rfl))
  | some e => exact toSchema_rel ⟨hs, hn⟩ e

end

end TypeExpr

/-! ## Declared fields -/

section

variable {M : ι → Type → Type} [∀ i, Monad (M i)] [∀ i, MonadExceptOf Problem (M i)]
  [∀ i, MonadLiftT Inference (M i)] [∀ i, MonadLiftT Attempt (M i)] (𝓡 : Relator ι M)
  {Leaf : (ι → Node) → Prop}

namespace Field

theorem node_rel (hs : Steady Leaf) {typeNode : (i : ι) → String → Option String → M i Node}
    (ht : ∀ text scope, 𝓡.Rel (Shaped Leaf) fun i => typeNode i text scope) {d : Declared}
    (hd : d.kind = some .union → 𝓡.Meets (.shape .unionWithoutVariants)) :
    𝓡.Rel (Grown Leaf) fun i => d.node (typeNode i) := by
  have htype : 𝓡.Rel (Grown Leaf) fun i => d.typeNode (typeNode i) := by
    unfold Declared.typeNode
    split
    · rename_i kind _ hkind
      refine 𝓡.mono (𝓡.triedSame (P := fun _ => True) (fun _ _ => trivial) fun p hp => ?_) ?_
      · obtain ⟨rfl, rfl⟩ := Shape.union_of_error hp
        exact hd hkind
      · rintro _ ⟨_⟩
        exact Grown.formed.const _
    · exact 𝓡.mono (ht _ _) fun v hv => hv.grown
    · exact 𝓡.pure (Grown.formed.const _)
  refine 𝓡.bind htype fun v hv => 𝓡.pure ?_
  exact (Grown.congruent hs).retouch (Retouch.ofFacets (g := d.facetsOver) fun _ _ => rfl) hv

theorem propertiesOf_rel (hs : Steady Leaf) {typeNode : (i : ι) → String → Option String → M i Node}
    (ht : ∀ text scope, 𝓡.Rel (Shaped Leaf) fun i => typeNode i text scope) {ds : List Declared}
    (hds : ∀ d ∈ ds, d.kind = some .union → 𝓡.Meets (.shape .unionWithoutVariants)) :
    𝓡.Rel (Entered (Grown Leaf)) fun i => propertiesOf (typeNode i) ds :=
  𝓡.foldlM Entered.nil ds fun d hd _ hv => 𝓡.bind (node_rel 𝓡 hs ht (hds d hd)) fun _ hn => 𝓡.pure (hv.set _ hn)

end Field

/-! ## Types that name classes -/

namespace Infer

/-- The problems that the declared fields of a subject lead to. -/
inductive FieldProblem (r : Library) (direction : Direction) (s : Subject) : Problem → Prop
  | unread {p : Problem} (h : result (declaredFields direction s) r = .error p) : FieldProblem r direction s p
  | union {fields : List Field.Declared} {d : Field.Declared} (h : result (declaredFields direction s) r = .ok fields)
    (hd : d ∈ fields) (hkind : d.kind = some .union) : FieldProblem r direction s (.shape .unionWithoutVariants)

variable {cb : (i : ι) → ClassSchema (M i)} {direction : Direction}

theorem namedClass_rel (hcb : ∀ l, Found 𝓡.base l → 𝓡.Rel (Shaped Leaf) fun i => cb i l direction)
    (home : Source.Module) (name : String) :
    𝓡.Rel (Options (Shaped Leaf)) fun i => namedClass (cb i) direction home name := by
  refine 𝓡.bind (𝓡.read (.resolveClass home name) (gives_resolveClass _ _ _)) ?_
  rintro _ ⟨h⟩
  rename_i found
  cases found with
  | none => exact 𝓡.pure .none
  | some l => exact 𝓡.bind (hcb l (h l rfl)) fun v hv => 𝓡.pure (.some hv)

variable {t : Tables} (ht : t.types.HasUnion → 𝓡.Meets (.shape .unionWithoutVariants))

include ht

theorem typeNode_rel (hs : Steady Leaf)
    (hcb : ∀ l, Found 𝓡.base l → 𝓡.Rel (Shaped Leaf) fun i => cb i l direction) (home : Source.Module)
    (text : String) : 𝓡.Rel (Shaped Leaf) fun i => typeNode t (cb i) direction home text :=
  TypeExpr.schemaOf_rel 𝓡.toWeave hs (TypeExpr.namedSchema_rel 𝓡 ht (namedClass_rel 𝓡 hcb home)) _

theorem declaredProperties_rel (hs : Steady Leaf)
    (hcb : ∀ l, Found 𝓡.base l → 𝓡.Rel (Shaped Leaf) fun i => cb i l direction) {s : Subject}
    (hfields : ∀ p, FieldProblem 𝓡.base direction s p → 𝓡.Meets p) :
    𝓡.Rel (Options (Entered (Grown Leaf))) fun i => declaredProperties t (cb i) direction s := by
  have hfound : 𝓡.Rel (Options (Entered (Grown Leaf))) fun i => attempt do
      let fields ← declaredFields direction s
      return some (← Field.propertiesOf (fieldTypeNode t (cb i) direction s.module) fields) := by
    have hreads : Reads (fun _ => True) (declaredFields direction s) := .declaredFields direction s
    refine 𝓡.attempt (𝓡.bind (𝓡.asked hreads (gives_self hreads _) fun p hp => hfields p (.unread hp)) ?_)
    rintro _ ⟨hds⟩
    refine 𝓡.bind (Field.propertiesOf_rel 𝓡 hs ?_ ?_) fun v hv => 𝓡.pure (.some hv)
    · intro text scope
      refine 𝓡.bind (𝓡.read (.declaringModule s.module scope) .trivial) ?_
      rintro _ ⟨_⟩
      exact typeNode_rel 𝓡 ht hs hcb _ text
    · exact fun d hd hkind => hfields _ (.union hds hd hkind)
  refine 𝓡.bind hfound fun v hv => 𝓡.pure ?_
  cases hv with
  | none => exact .none
  | some hv =>
    obtain ⟨ps, hp⟩ := hv
    cases ps with
    | nil => exact .none
    | cons p ps => exact .some (.intro (p :: ps) hp)

theorem attributeNode_rel (hs : Steady Leaf)
    (hcb : ∀ l, Found 𝓡.base l → 𝓡.Rel (Shaped Leaf) fun i => cb i l .output) (nullable : Bool) (l : Located)
    (path : List String) :
    𝓡.Rel (Options (Shaped Leaf)) fun i => attributeNode t (cb i) nullable l path := by
  induction path generalizing nullable l with
  | nil => exact 𝓡.pure .none
  | cons name rest ih =>
    cases rest with
    | nil =>
      refine 𝓡.bind (𝓡.read (.attributeType? name l) .trivial) ?_
      rintro _ ⟨_⟩
      rename_i written _
      cases written with
      | none => exact 𝓡.pure .none
      | some written =>
        dsimp only
        split
        · exact 𝓡.pure .none
        · refine 𝓡.bind (typeNode_rel 𝓡 ht hs hcb written.module written.text) fun v hv => 𝓡.pure ?_
          cases nullable with
          | true => exact .some (hv.asNullable hs)
          | false => exact .some hv
    | cons next rest =>
      refine 𝓡.bind (𝓡.read (.attributeClass name l) .trivial) ?_
      rintro _ ⟨_⟩
      rename_i found _
      cases found with
      | none => exact 𝓡.pure .none
      | some found => exact ih _ _

end Infer
end
end ApiSchema
