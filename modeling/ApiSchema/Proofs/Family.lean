import ApiSchema.Schema.Walk

/-!
# Families of schemas

Several runs of the inference give several schemas of one thing. Such a family is a function from runs to
nodes, and it is *grown* from leaves when the nodes have one shape and the same facets, except for
subtrees that form a leaf. A relation between the nodes of a family that every constructor keeps
(`Congruent`) holds of a grown family as soon as it holds of the leaves (`Grown.collapse`).

`Node.Cut` says that a type inside a schema was not expanded. A node map that only touches up the root
(`Retouch`) keeps cuts.
-/
namespace ApiSchema

variable {ι κ : Type}

/-! ## Entries of families -/

namespace Entries

variable {α : Type}

/-- The entries of one run. -/
def column (ps : Entries (ι → α)) (i : ι) : Entries α := ps.map fun p => (p.1, p.2 i)

theorem column_setAll (ps qs : Entries (ι → α)) (i : ι) :
    column (setAll ps qs) i = setAll (column ps i) (column qs i) := (setAll_map (fun w : ι → α => w i) ps qs).symm

theorem column_const (ps : Entries α) (i : ι) : column (ps.map fun p => (p.1, fun _ : ι => p.2)) i = ps := by
  unfold column
  rw [List.map_map]
  exact List.map_id ps

theorem column_append (ps qs : Entries (ι → α)) (i : ι) :
    column (ps ++ qs) i = column ps i ++ column qs i := List.map_append

theorem mem_of_get? {es : Entries α} {key : String} {v : α} (h : es.get? key = some v) : (key, v) ∈ es := by
  induction es with
  | nil => cases h
  | cons e es ih =>
    obtain ⟨k, w⟩ := e
    unfold get? at h
    split at h
    · rename_i hk
      cases h
      rw [beq_iff_eq.1 hk]
      exact List.mem_cons_self
    · exact List.mem_cons_of_mem _ (ih h)

theorem mem_values {es : Entries α} {key : String} {v : α} (h : es.get? key = some v) : v ∈ es.values :=
  List.mem_map_of_mem (mem_of_get? h)

theorem mem_set {ps : Entries α} {key : String} {v : α} {p : String × α} (h : p ∈ set ps key v) :
    p.2 = v ∨ p ∈ ps := by
  induction ps with
  | nil =>
    rw [set, List.mem_singleton] at h
    exact .inl (congrArg Prod.snd h)
  | cons q ps ih =>
    obtain ⟨k, w⟩ := q
    unfold set at h
    split at h
    · rcases List.mem_cons.1 h with rfl | hp
      · exact .inl rfl
      · exact .inr (List.mem_cons_of_mem _ hp)
    · rcases List.mem_cons.1 h with rfl | hp
      · exact .inr List.mem_cons_self
      · exact (ih hp).imp_right (List.mem_cons_of_mem _)

theorem mem_setAll {ps qs : Entries α} {p : String × α} (h : p ∈ setAll ps qs) :
    (∃ q ∈ qs, p.2 = q.2) ∨ p ∈ ps := by
  unfold setAll at h
  induction qs generalizing ps with
  | nil => exact .inr h
  | cons q qs ih =>
    rcases ih h with ⟨r, hr, hp⟩ | hp
    · exact .inl ⟨r, List.mem_cons_of_mem _ hr, hp⟩
    · rcases mem_set hp with hp | hp
      · exact .inl ⟨q, List.mem_cons_self, hp⟩
      · exact .inr hp

end Entries

/-! ## Cuts -/

namespace Node

/-- Induction over schemas, with the children of a node in lists. -/
theorem induct {P : Node → Prop} (scalar : ∀ k f, P (.scalar k f)) (array : ∀ f n, P n → P (.array f n))
    (object : ∀ f ps, (∀ p ∈ ps, P p.2) → P (.object f ps))
    (union : ∀ f v vs, P v → (∀ w ∈ vs, P w) → P (.union f v vs)) : ∀ n, P n
  | .scalar k f => scalar k f
  | .array f n => array f n (induct scalar array object union n)
  | .object f ps => object f ps fun p hp =>
    have : sizeOf p.2 < 1 + sizeOf ps := by
      have := List.sizeOf_lt_of_mem hp
      obtain ⟨k, n⟩ := p
      simp only [Prod.mk.sizeOf_spec] at this
      simp only
      omega
    induct scalar array object union p.2
  | .union f v vs => union f v vs (induct scalar array object union v) fun w hw =>
    have : sizeOf w < 1 + sizeOf vs := by
      have := List.sizeOf_lt_of_mem hw
      omega
    induct scalar array object union w
termination_by n => sizeOf n
decreasing_by
  all_goals
    simp only [Node.array.sizeOf_spec, Node.object.sizeOf_spec, Node.union.sizeOf_spec]
    omega

/-- A type inside the schema was not expanded. -/
inductive Cut : Node → Prop
  | mark {f ps} (h : f.circularRef.isSome = true) : Cut (.object f ps)
  | items {f n} (h : Cut n) : Cut (.array f n)
  | property {f ps p} (hp : p ∈ ps) (h : Cut p.2) : Cut (.object f ps)
  | first {f v vs} (h : Cut v) : Cut (.union f v vs)
  | other {f v vs w} (hw : w ∈ vs) (h : Cut w) : Cut (.union f v vs)

theorem walkFrom_append (xs ys : List Node) : walkFrom (xs ++ ys) = walkFrom xs ++ walkFrom ys := by
  induction xs using walkFrom.induct with
  | case1 => simp [walkFrom]
  | case2 n pending ih => rw [List.cons_append, walkFrom, walkFrom, ← List.append_assoc, ih, List.cons_append]

theorem walkFrom_eq (ns : List Node) : walkFrom ns = ns.flatMap walk := by
  induction ns with
  | nil => simp [walkFrom]
  | cons n ns ih => rw [List.flatMap_cons, ← ih, walk, ← walkFrom_append, List.singleton_append]

theorem walk_eq (n : Node) : n.walk = n :: n.children.flatMap walk := by
  rw [walk, walkFrom, List.append_nil, walkFrom_eq]

theorem mem_walk {n o : Node} : o ∈ n.walk ↔ o = n ∨ ∃ c ∈ n.children, o ∈ c.walk := by
  rw [walk_eq, List.mem_cons, List.mem_flatMap]

theorem hasPlaceholder_eq (n : Node) : n.hasPlaceholder = (n.isPlaceholder || n.children.any hasPlaceholder) := by
  rw [hasPlaceholder, walk_eq, List.any_cons, List.any_flatMap]
  rfl

theorem properties_withFacets (n : Node) (f : Facets) : (n.withFacets f).properties = n.properties := by
  cases n <;> rfl

theorem children_withFacets (n : Node) (f : Facets) : (n.withFacets f).children = n.children := by
  cases n <;> rfl

theorem hasPlaceholder_of_child {n m : Node} (hm : m ∈ n.children) (h : m.hasPlaceholder = true) :
    n.hasPlaceholder = true := by
  rw [hasPlaceholder_eq, Bool.or_eq_true, List.any_eq_true]
  exact .inr ⟨m, hm, h⟩

theorem Cut.hasPlaceholder {n : Node} (h : Cut n) : n.hasPlaceholder = true := by
  induction h with
  | mark h =>
    rw [hasPlaceholder_eq, Bool.or_eq_true]
    exact .inl h
  | items _ ih => exact hasPlaceholder_of_child (by simp [children]) ih
  | property hp _ ih => exact hasPlaceholder_of_child (List.mem_map_of_mem hp) ih
  | first _ ih => exact hasPlaceholder_of_child List.mem_cons_self ih
  | other hw _ ih => exact hasPlaceholder_of_child (List.mem_cons_of_mem _ hw) ih

theorem cut_circular (name : String) : Cut (circular name) := .mark rfl

theorem cut_depthLimited (name : String) : Cut (depthLimited name) := .mark rfl

end Node

/-! ## Root maps -/

/-- A node map that changes the facets of a container at most, and keeps the mark of an object. What it
makes of a scalar is left open. -/
structure Retouch (h : Node → Node) : Prop where
  array : ∀ f, ∃ f', ∀ n, h (.array f n) = .array f' n
  object : ∀ f, ∃ f', f'.circularRef = f.circularRef ∧ ∀ ps, h (.object f ps) = .object f' ps
  union : ∀ f, ∃ f', ∀ v vs, h (.union f v vs) = .union f' v vs

theorem Retouch.ofFacets {g : Kind → Facets → Facets} (hg : ∀ k f, (g k f).circularRef = f.circularRef) :
    Retouch fun n => n.mapFacets (g n.kind) where
  array f := ⟨g .array f, fun _ => rfl⟩
  object f := ⟨g .object f, hg .object f, fun _ => rfl⟩
  union f := ⟨g .union f, fun _ _ => rfl⟩

theorem Retouch.cut {h : Node → Node} (hh : Retouch h) {n : Node} (hn : n.Cut) : (h n).Cut := by
  cases hn with
  | @mark f _ hf =>
    obtain ⟨f', hr, he⟩ := hh.object f
    rw [he]
    exact .mark (hr ▸ hf)
  | @items f _ hn =>
    obtain ⟨f', he⟩ := hh.array f
    rw [he]
    exact .items hn
  | @property f _ _ hp hn =>
    obtain ⟨f', _, he⟩ := hh.object f
    rw [he]
    exact .property hp hn
  | @first f _ _ hn =>
    obtain ⟨f', he⟩ := hh.union f
    rw [he]
    exact .first hn
  | @other f _ _ _ hw hn =>
    obtain ⟨f', he⟩ := hh.union f
    rw [he]
    exact .other hw hn

/-! ## Relations that constructors keep -/

/-- A relation between the nodes of a family that holds of equal scalars and is kept by the other
constructors. -/
structure Formed (L : (ι → Node) → Prop) : Prop where
  scalar : ∀ k f, L fun _ => .scalar k f
  array : ∀ f {ns}, L ns → L fun i => .array f (ns i)
  object : ∀ f (ps : Entries (ι → Node)), (∀ p ∈ ps, L p.2) → L fun i => .object f (ps.column i)
  union : ∀ f {v} {vs : List (ι → Node)}, L v → (∀ w ∈ vs, L w) → L fun i => .union f (v i) (vs.map (· i))

theorem Formed.const {L : (ι → Node) → Prop} (hL : Formed L) (n : Node) : L fun _ => n := by
  induction n using Node.induct with
  | scalar k f => exact hL.scalar k f
  | array f n ih => exact hL.array f ih
  | object f ps ih =>
    have h := hL.object f (ps.map fun p => (p.1, fun _ => p.2)) (by
      intro p hp
      obtain ⟨q, hq, rfl⟩ := List.mem_map.1 hp
      exact ih q hq)
    simpa only [Entries.column_const] using h
  | union f v vs ihv ih =>
    have h := @Formed.union ι L hL f (fun _ => v) (vs.map fun w _ => w) ihv (by
      intro w hw
      obtain ⟨q, hq, rfl⟩ := List.mem_map.1 hw
      exact ih q hq)
    simpa [Function.comp_def] using h

/-- A relation that constructors and root maps keep. -/
structure Congruent (L : (ι → Node) → Prop) : Prop extends Formed L where
  retouch : ∀ {h ns}, Retouch h → L ns → L fun i => h (ns i)

namespace Congruent

variable {L : (ι → Node) → Prop}

theorem eq (a b : ι) : Congruent fun ns : ι → Node => ns a = ns b where
  scalar _ _ := rfl
  array f _ h := congrArg (Node.array f) h
  object f ps h := congrArg (Node.object f) (List.map_congr_left fun p hp => by rw [h p hp])
  union f v vs hv h := by
    have hvs : vs.map (· a) = vs.map (· b) := List.map_congr_left h
    simp only [hv, hvs]
  retouch {h ns} _ hn := congrArg h hn

/-- A cut anywhere in the schema of one run takes the place of the relation. -/
theorem orCut (hL : Congruent L) (i : ι) : Congruent fun ns => (ns i).Cut ∨ L ns where
  scalar k f := .inr (hL.scalar k f)
  array f _ h := h.imp .items (hL.array f)
  object f ps h := by
    by_cases hc : ∃ p ∈ ps, (p.2 i).Cut
    · obtain ⟨p, hp, hc⟩ := hc
      exact .inl (.property (List.mem_map_of_mem hp) hc)
    · exact .inr (hL.object f ps fun p hp => (h p hp).resolve_left fun hp' => hc ⟨p, hp, hp'⟩)
  union f v vs hv h := by
    rcases hv with hv | hv
    · exact .inl (.first hv)
    · by_cases hc : ∃ w ∈ vs, (w i).Cut
      · obtain ⟨w, hw, hc⟩ := hc
        exact .inl (.other (List.mem_map_of_mem hw) hc)
      · exact .inr (hL.union f hv fun w hw => (h w hw).resolve_left fun hw' => hc ⟨w, hw, hw'⟩)
  retouch hh hn := hn.imp hh.cut (hL.retouch hh)

theorem comp (hL : Congruent L) (e : ι → κ) : Congruent fun ns : κ → Node => L fun i => ns (e i) where
  scalar := hL.scalar
  array f _ h := hL.array f h
  object f ps h := by
    have := hL.object f (ps.map fun p => (p.1, fun i => p.2 (e i))) (by
      intro p hp
      obtain ⟨q, hq, rfl⟩ := List.mem_map.1 hp
      exact h q hq)
    simpa [Entries.column, Function.comp_def] using this
  union f v vs hv h := by
    have := @Formed.union ι L hL.toFormed f (fun i => v (e i)) (vs.map fun w i => w (e i)) hv (by
      intro w hw
      obtain ⟨q, hq, rfl⟩ := List.mem_map.1 hw
      exact h q hq)
    simpa [Function.comp_def] using this
  retouch hh hn := hL.retouch hh hn

end Congruent

/-! ## Grown families -/

/-- The nodes have one shape and the same facets down to leaves, which are families of `Leaf`. -/
inductive Grown (Leaf : (ι → Node) → Prop) : (ι → Node) → Prop
  | leaf {ns} (h : Leaf ns) : Grown Leaf ns
  | scalar (k f) : Grown Leaf fun _ => .scalar k f
  | array (f) {ns} (h : Grown Leaf ns) : Grown Leaf fun i => .array f (ns i)
  | object (f) (ps : Entries (ι → Node)) (h : ∀ p ∈ ps, Grown Leaf p.2) :
    Grown Leaf fun i => .object f (ps.column i)
  | union (f) {v} {vs : List (ι → Node)} (hv : Grown Leaf v) (h : ∀ w ∈ vs, Grown Leaf w) :
    Grown Leaf fun i => .union f (v i) (vs.map (· i))

namespace Grown

variable {Leaf L : (ι → Node) → Prop} {ns : ι → Node}

/-- What holds of the leaves and is kept by the constructors holds of the whole family. -/
theorem collapse (hL : Formed L) (hleaf : ∀ ns, Leaf ns → L ns) (h : Grown Leaf ns) : L ns := by
  induction h with
  | leaf h => exact hleaf _ h
  | scalar k f => exact hL.scalar k f
  | array f _ ih => exact hL.array f ih
  | object f ps _ ih => exact hL.object f ps ih
  | union f _ _ ihv ih => exact hL.union f ihv ih

theorem formed : Formed (Grown Leaf) := ⟨.scalar, .array, .object, .union⟩

theorem eq_const [Inhabited ι] (h : Grown (fun _ => False) ns) : ns = fun _ => ns default :=
  funext fun i => h.collapse (L := fun ns => ns i = ns default) (Congruent.eq i default).toFormed nofun

/-- Root maps keep a grown family if they keep its leaves. -/
theorem congruent (hs : ∀ h ns, Retouch h → Leaf ns → Leaf fun i => h (ns i)) : Congruent (Grown Leaf) where
  toFormed := formed
  retouch hh hn := by
    cases hn with
    | leaf hn => exact .leaf (hs _ _ hh hn)
    | scalar k f => exact formed.const _
    | array f hn =>
      obtain ⟨f', he⟩ := hh.array f
      simpa only [he] using Grown.array f' hn
    | object f ps hps =>
      obtain ⟨f', _, he⟩ := hh.object f
      simpa only [he] using Grown.object f' ps hps
    | union f hv hvs =>
      obtain ⟨f', he⟩ := hh.union f
      simpa only [he] using Grown.union f' hv hvs

end Grown

/-- A grown family whose root is no leaf. -/
inductive Rooted (Leaf : (ι → Node) → Prop) : (ι → Node) → Prop
  | scalar (k f) : Rooted Leaf fun _ => .scalar k f
  | array (f) {ns} (h : Grown Leaf ns) : Rooted Leaf fun i => .array f (ns i)
  | object (f) (ps : Entries (ι → Node)) (h : ∀ p ∈ ps, Grown Leaf p.2) :
    Rooted Leaf fun i => .object f (ps.column i)
  | union (f) {v} {vs : List (ι → Node)} (hv : Grown Leaf v) (h : ∀ w ∈ vs, Grown Leaf w) :
    Rooted Leaf fun i => .union f (v i) (vs.map (· i))

theorem Grown.leaf_or_rooted {Leaf : (ι → Node) → Prop} {ns : ι → Node} (h : Grown Leaf ns) :
    Leaf ns ∨ Rooted Leaf ns := by
  cases h with
  | leaf h => exact .inl h
  | scalar k f => exact .inr (.scalar k f)
  | array f h => exact .inr (.array f h)
  | object f ps h => exact .inr (.object f ps h)
  | union f hv h => exact .inr (.union f hv h)

/-- Nodes that agree on whether they have properties or a mark. -/
def Level (ns : ι → Node) : Prop := ∃ b : Bool, ∀ i, (!(ns i).properties.isEmpty || (ns i).isPlaceholder) = b

namespace Rooted

variable {Leaf : (ι → Node) → Prop} {ns : ι → Node}

theorem const (n : Node) : Rooted Leaf fun _ : ι => n := by
  have h : Formed fun ns : ι → Node => Grown Leaf ns ∧ Rooted Leaf ns :=
    { scalar := fun k f => ⟨.scalar k f, .scalar k f⟩
      array := fun f _ h => ⟨.array f h.1, .array f h.1⟩
      object := fun f ps h => ⟨.object f ps fun p hp => (h p hp).1, .object f ps fun p hp => (h p hp).1⟩
      union := fun f _ _ hv h => ⟨.union f hv.1 fun w hw => (h w hw).1, .union f hv.1 fun w hw => (h w hw).1⟩ }
  exact (h.const n).2

theorem comp {L : (κ → Node) → Prop} {e : κ → ι} (hg : ∀ ns, Grown Leaf ns → Grown L fun k => ns (e k))
    (h : Rooted Leaf ns) : Rooted L fun k => ns (e k) := by
  cases h with
  | scalar k f => exact .scalar k f
  | array f h => exact .array f (hg _ h)
  | object f ps h =>
    have := @Rooted.object κ L f (ps.map fun p => (p.1, fun k => p.2 (e k))) (by
      intro p hp
      obtain ⟨q, hq, rfl⟩ := List.mem_map.1 hp
      exact hg _ (h q hq))
    simpa [Entries.column, Function.comp_def] using this
  | @union f v vs hv h =>
    have := @Rooted.union κ L f _ (vs.map fun w k => w (e k)) (hg _ hv) (by
      intro w hw
      obtain ⟨q, hq, rfl⟩ := List.mem_map.1 hw
      exact hg _ (h q hq))
    simpa [Function.comp_def] using this

theorem level (h : Rooted Leaf ns) : Level ns := by
  cases h with
  | scalar k f | array f h => exact ⟨f.circularRef.isSome, fun _ => rfl⟩
  | object f ps h => exact ⟨!ps.isEmpty || f.circularRef.isSome, fun _ => by cases ps <;> rfl⟩
  | union f hv h => exact ⟨f.circularRef.isSome, fun _ => rfl⟩

end Rooted

end ApiSchema
