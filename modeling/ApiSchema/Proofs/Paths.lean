import ApiSchema.Proofs.Family
import ApiSchema.Schema.Expand
import Mathlib.Data.List.Induction
import Mathlib.Data.List.Infix

/-!
# Field paths

Expanding paths loses nothing and invents nothing (`navigate_expandPaths`): every fragment is found where its path
leads, and every other node that was made on the way is a plain wrapper.

A tree of fragments is known by what it holds at each path (`PathTree.holds`). One insertion changes that at its own
path and creates the parts before it (`holds_insert`); what a whole list leaves is its last fragment at each path
(`holds_pathTree`). The schema of a tree is then navigated part by part.
-/
namespace ApiSchema

variable {t u : PathTree} {s : String} {q : List String} {fragments : List (String × Node)}

/-! ## Navigation -/

/-- The kind of container that has a child under a segment. -/
def containerOf (segment : String) : Kind := if segment = elementSegment then .array else .object

namespace Node

/-- One step into a schema: to the items of an array, or to a property of an object. -/
def step? : Node → String → Option Node
  | .array _ items, s => if s = elementSegment then some items else none
  | .object _ props, s => if s = elementSegment then none else Entries.get? props s
  | _, _ => none

/-- Where a path leads in a schema. -/
def navigate : Node → List String → Option Node
  | n, [] => some n
  | n, s :: rest => (n.step? s).bind (navigate · rest)

end Node

namespace PathTree

/-! ## What a tree holds -/

def fragment : PathTree → Option Node
  | .node f _ _ => f

/-- The part under one segment. -/
def child? : PathTree → String → Option PathTree
  | .node _ named element, s => if s = elementSegment then element else Entries.get? named s

/-- The part at the end of a path. -/
def part? : PathTree → List String → Option PathTree
  | t, [] => some t
  | t, s :: rest => (t.child? s).bind (part? · rest)

/-- What stands at a path: nothing, a part without a fragment, or a fragment. -/
def holds (t : PathTree) (path : List String) : Option (Option Node) := (t.part? path).map fragment

theorem part?_concat (t : PathTree) (q : List String) (s : String) :
    t.part? (q ++ [s]) = (t.part? q).bind (·.child? s) := by
  induction q generalizing t with
  | nil => simp [part?]
  | cons other q ih =>
    cases h : t.child? other <;> simp [part?, h, ih]

theorem child?_insert (f : Node) (s : String) (rest : List String) (t : PathTree) (other : String) :
    (insert f (s :: rest) t).child? other =
      if other = s then some (insert f rest ((t.child? s).getD empty)) else t.child? other := by
  obtain ⟨own, named, element⟩ := t
  rw [insert]
  by_cases hs : s = elementSegment
  · subst hs
    by_cases ho : other = elementSegment <;> simp [child?, ho]
  · by_cases ho : other = s
    · simp [child?, hs, ho, Entries.get?_set_self]
    · simp [child?, hs, ho, Entries.get?_set_ne _ _ ho]

theorem holds_cons (t : PathTree) (s : String) (rest : List String) :
    t.holds (s :: rest) = (t.child? s).bind (·.holds rest) := by
  rw [holds, part?]
  cases t.child? s <;> rfl

theorem holds_empty_cons (s : String) (rest : List String) : empty.holds (s :: rest) = none := by
  rw [holds_cons, empty, child?]
  split <;> rfl

/-- An insertion sets what stands at its path, and makes the parts before it. -/
theorem holds_insert (f : Node) (path : List String) (t : PathTree) (q : List String) :
    (insert f path t).holds q =
      if q = path then some (some f) else if q <+: path then some (t.holds q).join else t.holds q := by
  induction path generalizing t q with
  | nil =>
    obtain ⟨own, named, element⟩ := t
    cases q with
    | nil => rfl
    | cons s r =>
      simp only [holds_cons, insert, child?, List.prefix_nil, reduceCtorEq, if_false]
  | cons s path ih =>
    cases q with
    | nil =>
      obtain ⟨own, named, element⟩ := t
      rw [insert]
      split <;> simp [holds, part?, fragment]
    | cons other r =>
      rw [holds_cons, child?_insert, holds_cons]
      by_cases ho : other = s
      · subst ho
        simp only [if_true, Option.bind_some, ih, List.cons.injEq, true_and, List.cons_prefix_cons]
        cases t.child? other with
        | some u => rfl
        | none =>
          cases r with
          | nil => simp [holds, part?, fragment, empty]
          | cons s' r => simp [holds_empty_cons]
      · simp [ho, List.cons_prefix_cons]

/-! ## Trees of fragments -/

/-- Each name stands once beside each other, and the element segment is no name. -/
inductive Proper : PathTree → Prop
  | intro {f named element} (nodup : (Entries.keys named).Nodup) (names : elementSegment ∉ Entries.keys named)
    (parts : ∀ p ∈ named, Proper p.2) (elements : ∀ t, element = some t → Proper t) : Proper (.node f named element)

theorem proper_empty : Proper empty := .intro .nil nofun nofun nofun

theorem Proper.insert (ht : Proper t) (f : Node) (path : List String) : Proper (t.insert f path) := by
  induction path generalizing t with
  | nil =>
    obtain ⟨nodup, names, parts, elements⟩ := ht
    exact .intro nodup names parts elements
  | cons s path ih =>
    obtain ⟨nodup, names, parts, elements⟩ := ht
    rename_i own named element
    have hpart : ∀ o : Option PathTree, (∀ t, o = some t → Proper t) → Proper ((o.getD empty).insert f path) := by
      intro o ho
      cases o with
      | none => exact ih proper_empty
      | some t => exact ih (ho t rfl)
    rw [PathTree.insert]
    split
    · refine .intro nodup names parts fun t ht => ?_
      cases ht
      exact hpart element elements
    · rename_i hs
      refine .intro (Entries.nodup_keys_set _ _ nodup) ?_ (fun p hp => ?_) elements
      · rw [Entries.keys_set]
        split
        · exact names
        · intro h
          rcases List.mem_append.1 h with h | h
          · exact names h
          · exact hs (beq_iff_eq.2 (List.mem_singleton.1 h).symm)
      · rcases Entries.mem_set hp with hp | hp
        · rw [hp]
          exact hpart _ fun t ht => parts _ (Entries.mem_of_get? ht)
        · exact parts p hp

theorem Proper.child? (ht : Proper t) (h : t.child? s = some u) : Proper u := by
  obtain ⟨_, _, parts, elements⟩ := ht
  rw [PathTree.child?] at h
  split at h
  · exact elements u h
  · exact parts _ (Entries.mem_of_get? h)

theorem Proper.part? (ht : Proper t) (h : t.part? q = some u) : Proper u := by
  induction q generalizing t with
  | nil =>
    cases h
    exact ht
  | cons s q ih =>
    obtain ⟨v, hv, hu⟩ := Option.bind_eq_some_iff.1 h
    exact ih (ht.child? hv) hu

theorem named_eq_nil {f : Option Node} {named : Entries PathTree} {element : Option PathTree}
    (ht : Proper (.node f named element)) (h : ∀ s, s ≠ elementSegment → child? (.node f named element) s = none) :
    named = [] := by
  obtain ⟨_, names, _, _⟩ := ht
  cases named with
  | nil => rfl
  | cons p named =>
    have hk : p.1 ≠ elementSegment := fun hp => names (hp ▸ List.mem_cons_self)
    have := h p.1 hk
    simp [child?, hk, Entries.get?] at this

theorem get?_toNodes (named : Entries PathTree) (name : String) :
    Entries.get? (toNodes named) name = (Entries.get? named name).map toNode := by
  induction named with
  | nil => rfl
  | cons p named ih =>
    obtain ⟨k, t⟩ := p
    by_cases hk : k = name <;> simp [toNodes, Entries.get?, hk, ih]

/-- A part that nothing stands beside is where its segment leads in the schema, and the tree is a container, with what
its own fragment says. -/
theorem toNode_of_child (ht : Proper t)
    (hs : s = elementSegment → ∀ other, other ≠ elementSegment → t.child? other = none) (h : t.child? s = some u) :
    t.toNode.step? s = some u.toNode ∧ t.toNode.kind = containerOf s ∧
      t.toNode.facets = wrapperFacets (containerOf s) t.fragment := by
  obtain ⟨f, named, element⟩ := t
  rw [child?] at h
  split at h
  · rename_i hse
    have hnamed := named_eq_nil ht (hs hse)
    subst hnamed h
    simp [toNode, Node.step?, containerOf, hse, Node.kind, Node.facets, fragment]
  · rename_i hse
    cases named with
    | nil => cases h
    | cons p named =>
      have hget := get?_toNodes (p :: named) s
      rw [h] at hget
      refine ⟨?_, ?_⟩
      · simpa [toNode, toNodes, Node.step?, hse] using hget
      · simp [toNode, containerOf, hse, Node.kind, Node.facets, fragment]

theorem navigate_toNode {path : List String} (ht : Proper t)
    (hpath : ∀ q rest, path = q ++ elementSegment :: rest → ∀ other, other ≠ elementSegment →
      t.part? (q ++ [other]) = none) (h : t.part? path = some u) : t.toNode.navigate path = some u.toNode := by
  induction path generalizing t with
  | nil =>
    cases h
    rfl
  | cons s path ih =>
    obtain ⟨v, hv, hu⟩ := Option.bind_eq_some_iff.1 h
    have hstep : t.toNode.step? s = some v.toNode := by
      refine (toNode_of_child ht (fun hs other ho => ?_) hv).1
      have := hpath [] path (by rw [hs]; rfl) other ho
      simpa [part?] using this
    have hrest := ih (ht.child? hv) (fun q rest hq other ho => ?_) hu
    · simp [Node.navigate, hstep, hrest]
    · have := hpath (s :: q) rest (by rw [hq]; rfl) other ho
      simpa [part?, hv] using this

/-- What a schema of a tree has at a path is the schema of a part, or lies in a fragment that nothing leads on from. -/
theorem navigate_toNode_cases {path : List String} {n : Node} (h : t.toNode.navigate path = some n) :
    (∃ u, t.part? path = some u ∧ n = u.toNode) ∨
      ∃ q rest u f, path = q ++ rest ∧ t.part? q = some u ∧ (∀ s, u.child? s = none) ∧ u.fragment = some f ∧
        f.navigate rest = some n := by
  induction path generalizing t with
  | nil =>
    cases h
    exact .inl ⟨t, rfl, rfl⟩
  | cons s path ih =>
    obtain ⟨m, hm, hn⟩ := Option.bind_eq_some_iff.1 h
    have hstep : (∃ u, t.child? s = some u ∧ m = u.toNode) ∨
        (∀ s, t.child? s = none) ∧ ∃ f, t.fragment = some f ∧ t.toNode = f := by
      obtain ⟨own, named, element⟩ := t
      cases named with
      | cons p named =>
        by_cases hs : s = elementSegment
        · simp [toNode, Node.step?, hs] at hm
        · have hget := get?_toNodes (p :: named) s
          have hnamed : Entries.get? (toNodes (p :: named)) s = some m := by
            simpa [toNode, toNodes, Node.step?, hs] using hm
          rw [hnamed] at hget
          obtain ⟨u, hu, rfl⟩ := Option.map_eq_some_iff.1 hget.symm
          exact .inl ⟨u, by simp [child?, hs, hu], rfl⟩
      | nil =>
        cases element with
        | some u =>
          by_cases hs : s = elementSegment
          · exact .inl ⟨u, by simp [child?, hs], by simpa [toNode, Node.step?, hs, eq_comm] using hm⟩
          · simp [toNode, Node.step?, hs] at hm
        | none =>
          cases own with
          | none => simp [toNode, Node.objectOf, Node.step?, Entries.get?] at hm
          | some f => exact .inr ⟨fun s => by simp [child?, Entries.get?], f, rfl, rfl⟩
    rcases hstep with ⟨u, hu, rfl⟩ | ⟨hleaf, f, hf, hnode⟩
    · rcases ih hn with ⟨v, hv, rfl⟩ | ⟨q, rest, v, f, rfl, hv, hleaf, hf, hn⟩
      · exact .inl ⟨v, by simp [part?, hu, hv], rfl⟩
      · exact .inr ⟨s :: q, rest, v, f, rfl, by simp [part?, hu, hv], hleaf, hf, hn⟩
    · exact .inr ⟨[], s :: path, t, f, rfl, rfl, hleaf, hf, hnode ▸ h⟩

/-- The node of a part that nothing leads on from is its fragment, if it has one. -/
theorem toNode_of_leaf (ht : Proper t) (hleaf : ∀ s, t.child? s = none) :
    t.toNode = t.fragment.getD (Node.objectOf []) := by
  obtain ⟨own, named, element⟩ := t
  have hnamed := named_eq_nil ht fun s _ => hleaf s
  have helement : element = none := by simpa [child?] using hleaf elementSegment
  subst hnamed helement
  rfl

end PathTree

/-! ## Lists of fragments -/

variable (fragments)

/-- Some path of the list is this one or leads on from it. -/
def Reached (q : List String) : Prop := ∃ e ∈ fragments, q <+: pathSegments e.1

instance (q : List String) : Decidable (Reached fragments q) := by
  unfold Reached
  infer_instance

/-- The last fragment that is given for a path. -/
def lastFragment? (q : List String) : Option Node :=
  ((fragments.filter fun e => pathSegments e.1 = q).getLast?).map (·.2)

/-- A fragment more: skipped if its path has no segments. -/
theorem pathTree_concat (e : String × Node) :
    pathTree (fragments ++ [e]) =
      if pathSegments e.1 = [] then pathTree fragments else (pathTree fragments).insert e.2 (pathSegments e.1) := by
  unfold pathTree
  rw [List.foldl_append]
  dsimp only [List.foldl_cons, List.foldl_nil]
  split
  · rename_i h
    rw [if_pos h]
  · rename_i h
    rw [if_neg h]

theorem proper_pathTree : (pathTree fragments).Proper := by
  induction fragments using List.reverseRecOn with
  | nil => exact PathTree.proper_empty
  | append_singleton fragments e ih =>
    rw [pathTree_concat]
    split
    · exact ih
    · exact ih.insert _ _

theorem fragment_pathTree : (pathTree fragments).fragment = none := by
  induction fragments using List.reverseRecOn with
  | nil => rfl
  | append_singleton fragments e ih =>
    rw [pathTree_concat]
    split
    · exact ih
    · rename_i h
      have := PathTree.holds_insert e.2 (pathSegments e.1) (pathTree fragments) []
      simpa [PathTree.holds, PathTree.part?, Ne.symm h, ih] using this

theorem lastFragment?_concat (e : String × Node) (q : List String) :
    lastFragment? (fragments ++ [e]) q = if pathSegments e.1 = q then some e.2 else lastFragment? fragments q := by
  unfold lastFragment?
  rw [List.filter_append]
  by_cases h : pathSegments e.1 = q <;> simp [h]

variable {fragments}

theorem reached_concat {e : String × Node} :
    Reached (fragments ++ [e]) q ↔ Reached fragments q ∨ q <+: pathSegments e.1 := by
  simp [Reached, or_and_right, exists_or]

theorem exists_of_lastFragment? {f : Node}
    (h : lastFragment? fragments q = some f) : ∃ e ∈ fragments, pathSegments e.1 = q ∧ e.2 = f := by
  obtain ⟨e, he, rfl⟩ := Option.map_eq_some_iff.1 h
  have := List.mem_filter.1 (List.mem_of_getLast? he)
  exact ⟨e, this.1, of_decide_eq_true this.2, rfl⟩

theorem exists_lastFragment? {e : String × Node} (he : e ∈ fragments) :
    ∃ f, lastFragment? fragments (pathSegments e.1) = some f := by
  have hmem : e ∈ fragments.filter fun e' => pathSegments e'.1 = pathSegments e.1 := by simp [he]
  unfold lastFragment?
  cases h : (fragments.filter fun e' => pathSegments e'.1 = pathSegments e.1).getLast? with
  | none =>
    rw [List.getLast?_eq_none_iff.1 h] at hmem
    cases hmem
  | some e' => exact ⟨e'.2, rfl⟩

/-- The tree of some fragments holds the last fragment of each path, in parts that the paths lead through. -/
theorem holds_pathTree (fragments : List (String × Node)) (hq : q ≠ []) :
    (pathTree fragments).holds q = if Reached fragments q then some (lastFragment? fragments q) else none := by
  induction fragments using List.reverseRecOn with
  | nil =>
    obtain ⟨s, rest, rfl⟩ := List.exists_cons_of_ne_nil hq
    exact PathTree.holds_empty_cons s rest
  | append_singleton fragments e ih =>
    have hempty : pathSegments e.1 = [] → ¬ q <+: pathSegments e.1 := fun h hp => hq (List.prefix_nil.1 (h ▸ hp))
    rw [pathTree_concat]
    simp only [lastFragment?_concat, reached_concat]
    by_cases h : pathSegments e.1 = []
    · have hne : pathSegments e.1 ≠ q := fun he => hq (he ▸ h)
      rw [if_pos h, ih, if_neg hne]
      simp only [hempty h, or_false]
    · rw [if_neg h, PathTree.holds_insert, ih]
      by_cases hself : q = pathSegments e.1
      · subst hself
        simp
      · by_cases hp : q <+: pathSegments e.1
        · by_cases hr : Reached fragments q
          · simp [hself, hp, hr, Ne.symm hself]
          · have hnone : lastFragment? fragments q = none := by
              cases h : lastFragment? fragments q with
              | none => rfl
              | some f =>
                obtain ⟨e, he, rfl, _⟩ := exists_of_lastFragment? h
                exact absurd ⟨e, he, List.prefix_rfl⟩ hr
            simp [hself, hp, hr, Ne.symm hself, hnone]
        · simp [hself, hp, Ne.symm hself]

/-- A path leads to a part if some path of the list leads through it. -/
theorem exists_part?_iff :
    (∃ u, (pathTree fragments).part? q = some u) ↔ q = [] ∨ Reached fragments q := by
  cases q with
  | nil => simp [PathTree.part?]
  | cons s rest =>
    have h := holds_pathTree fragments (List.cons_ne_nil s rest)
    unfold PathTree.holds at h
    constructor
    · rintro ⟨u, hu⟩
      right
      by_contra hr
      simp [hu, hr] at h
    · rintro (h' | hr)
      · cases h'
      · rw [if_pos hr] at h
        obtain ⟨u, hu, _⟩ := Option.map_eq_some_iff.1 h
        exact ⟨u, hu⟩

theorem fragment_part? (hq : q ≠ [])
    (hu : (pathTree fragments).part? q = some u) : u.fragment = lastFragment? fragments q := by
  have hr := (exists_part?_iff.1 ⟨u, hu⟩).resolve_left hq
  have h := holds_pathTree fragments hq
  rw [PathTree.holds, hu, if_pos hr] at h
  exact Option.some.inj h

/-! ## Where the fragments are -/

/-- A container of a kind that carries what a fragment says of it, except for a value. -/
structure Carries (kind : Kind) (fragment n : Node) : Prop where
  kind : n.kind = kind
  nullable : n.facets.nullable = fragment.facets.nullable
  required : n.facets.required = fragment.facets.required
  deprecated : n.facets.deprecated = fragment.facets.deprecated
  conditional : n.facets.conditional = fragment.facets.conditional
  description : n.facets.description = fragment.facets.description
  requirements : n.facets.requirements = fragment.facets.requirements
  sourceType : n.facets.sourceType = fragment.facets.sourceType
  constraints : n.facets.constraints = if fragment.kind = n.kind then fragment.facets.constraints else none

/-- Elements and names never follow at one position. -/
def Unmixed (fragments : List (String × Node)) : Prop :=
  ∀ q s, Reached fragments (q ++ [elementSegment]) → Reached fragments (q ++ [s]) → s = elementSegment

/-- Only what starts a listed path, and only the names in it, can be mixed. -/
instance (fragments : List (String × Node)) : Decidable (Unmixed fragments) :=
  decidable_of_iff (∀ e ∈ fragments, ∀ e' ∈ fragments, ∀ q ∈ (pathSegments e.1).inits, ∀ s ∈ pathSegments e'.1,
      q ++ [elementSegment] <+: pathSegments e.1 → q ++ [s] <+: pathSegments e'.1 → s = elementSegment) <| by
    constructor
    · rintro h q s ⟨e, he, hp⟩ ⟨e', he', hp'⟩
      have hq : q ∈ (pathSegments e.1).inits := (List.mem_inits ..).2 ((List.prefix_append _ _).trans hp)
      exact h e he e' he' q hq s (hp'.subset (by simp)) hp hp'
    · intro h e he e' he' q _ s _ hp hp'
      exact h q s ⟨e, he, hp⟩ ⟨e', he', hp'⟩

theorem Carries.ofFacets {kind : Kind} {f n : Node} (hk : n.kind = kind)
    (hn : n.facets = PathTree.wrapperFacets kind (some f)) : Carries kind f n := by
  subst hk
  refine ⟨rfl, ?_, ?_, ?_, ?_, ?_, ?_, ?_, ?_⟩ <;> rw [hn] <;> simp [PathTree.wrapperFacets]

section

theorem exists_child?_iff (hu : (pathTree fragments).part? q = some u) (s : String) :
    (∃ v, u.child? s = some v) ↔ Reached fragments (q ++ [s]) := by
  have h : (∃ v, (pathTree fragments).part? (q ++ [s]) = some v) ↔ _ := exists_part?_iff
  rw [PathTree.part?_concat, hu] at h
  simpa using h

variable (h : Unmixed fragments)

include h

theorem Unmixed.child?_eq_none (hu : (pathTree fragments).part? q = some u)
    (hr : Reached fragments (q ++ [elementSegment])) (hs : s ≠ elementSegment) : u.child? s = none := by
  cases hv : u.child? s with
  | none => rfl
  | some v => exact absurd (h q s hr ((exists_child?_iff hu s).1 ⟨v, hv⟩)) hs

theorem Unmixed.navigate (hu : (pathTree fragments).part? q = some u) :
    (expandPaths fragments).navigate q = some u.toNode := by
  rw [expandPaths]
  refine PathTree.navigate_toNode (proper_pathTree fragments) (fun q' rest hq other ho => ?_) hu
  have hr : Reached fragments (q' ++ [elementSegment]) := by
    have hq' : q ≠ [] := by simp [hq]
    obtain ⟨e, he, hp⟩ := (exists_part?_iff.1 ⟨u, hu⟩).resolve_left hq'
    refine ⟨e, he, List.IsPrefix.trans ⟨rest, ?_⟩ hp⟩
    simp [hq]
  cases hv : (pathTree fragments).part? (q' ++ [other]) with
  | none => rfl
  | some v =>
    have := (exists_part?_iff.1 ⟨v, hv⟩).resolve_left (by simp)
    exact absurd (h q' other hr this) ho

theorem Unmixed.toNode (hu : (pathTree fragments).part? q = some u)
    (hr : Reached fragments (q ++ [s])) :
    u.toNode.kind = containerOf s ∧ u.toNode.facets = PathTree.wrapperFacets (containerOf s) u.fragment := by
  obtain ⟨v, hv⟩ := (exists_child?_iff hu s).2 hr
  have hproper := (proper_pathTree fragments).part? hu
  refine (PathTree.toNode_of_child hproper (fun hs other ho => ?_) hv).2
  exact h.child?_eq_none hu (hs ▸ hr) ho

end

/-- Where no position has both elements and names: a listed path leads to its last fragment, or to a container that
carries what the fragment says if another path leads on from there. Whatever is at a place that no listed path leads
to lies in a fragment, and a place that paths only lead through is a plain wrapper. -/
theorem navigate_expandPaths (fragments : List (String × Node)) (h : Unmixed fragments) :
    (∀ e ∈ fragments, pathSegments e.1 ≠ [] → ∃ n last,
      (expandPaths fragments).navigate (pathSegments e.1) = some n ∧
      lastFragment? fragments (pathSegments e.1) = some last ∧
      ((∀ s, ¬ Reached fragments (pathSegments e.1 ++ [s])) → n = last) ∧
      ∀ s, Reached fragments (pathSegments e.1 ++ [s]) → Carries (containerOf s) last n) ∧
    (∀ q n, (expandPaths fragments).navigate q = some n → (q = [] ∨ Reached fragments q) ∨
      ∃ e ∈ fragments, ∃ last rest, q = pathSegments e.1 ++ rest ∧
        (∀ s, ¬ Reached fragments (pathSegments e.1 ++ [s])) ∧
        lastFragment? fragments (pathSegments e.1) = some last ∧ last.navigate rest = some n) ∧
    ∀ q, q = [] ∨ Reached fragments q ∧ lastFragment? fragments q = none →
      ∃ n, (expandPaths fragments).navigate q = some n ∧ n.facets = {} ∧ (n.kind = .object ∨ n.kind = .array) ∧
        ∀ s, Reached fragments (q ++ [s]) → n.kind = containerOf s := by
  have hleaf : ∀ q u, (pathTree fragments).part? q = some u → (∀ s, ¬ Reached fragments (q ++ [s])) →
      u.toNode = u.fragment.getD (Node.objectOf []) := by
    intro q u hu hend
    refine PathTree.toNode_of_leaf ((proper_pathTree fragments).part? hu) fun s => ?_
    cases hv : u.child? s with
    | none => rfl
    | some v => exact absurd ((exists_child?_iff hu s).1 ⟨v, hv⟩) (hend s)
  refine ⟨fun e he hne => ?_, fun q n hn => ?_, fun q hq => ?_⟩
  · obtain ⟨u, hu⟩ := exists_part?_iff.2 (.inr ⟨e, he, List.prefix_rfl⟩)
    obtain ⟨last, hlast⟩ := exists_lastFragment? he
    have hfragment := (fragment_part? hne hu).trans hlast
    refine ⟨u.toNode, last, h.navigate hu, hlast, fun hend => ?_, fun s hs => ?_⟩
    · rw [hleaf _ u hu hend, hfragment]
      rfl
    · obtain ⟨hkind, hfacets⟩ := h.toNode hu hs
      rw [hfragment] at hfacets
      exact .ofFacets hkind hfacets
  · rw [expandPaths] at hn
    rcases PathTree.navigate_toNode_cases hn with ⟨u, hu, -⟩ | ⟨q', rest, u, f, rfl, hu, hend, hf, hinside⟩
    · exact .inl (exists_part?_iff.1 ⟨u, hu⟩)
    · have hq' : q' ≠ [] := by
        rintro rfl
        have := fragment_pathTree fragments
        rw [Option.some.inj hu, hf] at this
        cases this
      have hlast := (fragment_part? hq' hu).symm.trans hf
      obtain ⟨e, he, rfl, -⟩ := exists_of_lastFragment? hlast
      refine .inr ⟨e, he, f, rest, rfl, fun s hs => ?_, hlast, hinside⟩
      obtain ⟨v, hv⟩ := (exists_child?_iff hu s).2 hs
      rw [hend s] at hv
      cases hv
  · obtain ⟨u, hu⟩ := exists_part?_iff.2 (hq.imp_right And.left)
    have hnone : u.fragment = none := by
      by_cases hnil : q = []
      · subst hnil
        rw [← Option.some.inj hu]
        exact fragment_pathTree fragments
      · exact (fragment_part? hnil hu).trans (hq.resolve_left hnil).2
    have hplain : ∀ s, Reached fragments (q ++ [s]) → u.toNode.kind = containerOf s ∧ u.toNode.facets = {} := by
      intro s hs
      obtain ⟨hkind, hfacets⟩ := h.toNode hu hs
      rw [hnone] at hfacets
      exact ⟨hkind, hfacets⟩
    have hwrapper : u.toNode.facets = {} ∧ (u.toNode.kind = .object ∨ u.toNode.kind = .array) := by
      by_cases hon : ∃ s, Reached fragments (q ++ [s])
      · obtain ⟨s, hs⟩ := hon
        obtain ⟨hkind, hfacets⟩ := hplain s hs
        refine ⟨hfacets, ?_⟩
        unfold containerOf at hkind
        split at hkind
        · exact .inr hkind
        · exact .inl hkind
      · rw [hleaf q u hu fun s hs => hon ⟨s, hs⟩, hnone]
        exact ⟨rfl, .inl rfl⟩
    exact ⟨u.toNode, h.navigate hu, hwrapper.1, hwrapper.2, fun s hs => (hplain s hs).1⟩

/-- Elements of `items` with and without a name for a level that is left out, and a path given twice. -/
theorem navigate_expandPaths_items :
    let fragments : List (String × Node) :=
      [("items.*.name", Node.string), ("items", .array { nullable := true } Node.string),
        ("items . * .tags.*", Node.string), ("items.*.name", Node.integer { required := true })]
    Unmixed fragments ∧
      (∃ n last, (expandPaths fragments).navigate ["items"] = some n ∧ lastFragment? fragments ["items"] = some last ∧
        Carries .array last n) ∧
      (∃ n last, (expandPaths fragments).navigate ["items", "*", "name"] = some n ∧
        lastFragment? fragments ["items", "*", "name"] = some last ∧ n = last) ∧
      ∃ n, (expandPaths fragments).navigate ["items", "*"] = some n ∧ n.facets = {} := by
  intro fragments
  have hitems : pathSegments "items" = ["items"] := by decide +kernel
  have hname : pathSegments "items.*.name" = ["items", "*", "name"] := by decide +kernel
  have hunmixed : Unmixed fragments := by decide +kernel
  obtain ⟨hlisted, -, hplain⟩ := navigate_expandPaths fragments hunmixed
  refine ⟨hunmixed, ?_, ?_, ?_⟩
  · obtain ⟨n, last, hn, hlast, -, hcarries⟩ :=
      hlisted ("items", .array { nullable := true } Node.string) (by simp [fragments]) (by simp [hitems])
    rw [hitems] at hn hlast hcarries
    exact ⟨n, last, hn, hlast, hcarries "*" (by decide +kernel)⟩
  · obtain ⟨n, last, hn, hlast, hend, -⟩ :=
      hlisted ("items.*.name", Node.string) (by simp [fragments]) (by simp [hname])
    rw [hname] at hn hlast hend
    refine ⟨n, last, hn, hlast, hend fun s => ?_⟩
    rintro ⟨e, he, hp⟩
    have hlength : ∀ e ∈ fragments, ["items", "*", "name"] <+: pathSegments e.1 → (pathSegments e.1).length = 3 := by
      decide +kernel
    have hlong := hp.length_le
    rw [hlength e he ((List.prefix_append _ _).trans hp)] at hlong
    exact absurd hlong (by simp)
  · obtain ⟨n, hn, hfacets, -⟩ := hplain ["items", "*"] (.inr ⟨by decide +kernel, by decide +kernel⟩)
    exact ⟨n, hn, hfacets⟩

end ApiSchema
