import ApiSchema.Proofs.Paths
import Mathlib.Data.List.Dedup

/-!
# The order of field paths

Fragments may be given in any order: as long as no path is given twice, the trees of two orders are the same, except
for the order of properties (`reordered_expandPaths`). That includes positions that have both elements and names, where
the names count in every order.

Two trees that hold the same at every path have such schemas (`PathTree.reordered_toNode`), and what a list of
fragments leaves at a path does not depend on its order.
-/
namespace ApiSchema

namespace Entries

variable {α : Type}

theorem mem_keys_iff {es : Entries α} {key : String} : key ∈ es.keys ↔ ∃ v, es.get? key = some v := by
  induction es with
  | nil => simp [keys, get?]
  | cons e es ih =>
    obtain ⟨k, v⟩ := e
    by_cases hk : k = key
    · simp [keys, get?, hk]
    · have hmem : key ∈ keys ((k, v) :: es) ↔ key ∈ keys es := by simp [keys, Ne.symm hk]
      have hget : get? ((k, v) :: es) key = get? es key := by simp [get?, hk]
      rw [hmem, ih, hget]

end Entries

/-- Schemas that differ at most in the order of properties, at every level. -/
inductive Node.Reordered : Node → Node → Prop
  | same (n : Node) : Reordered n n
  | array (f : Facets) {m n : Node} (h : Reordered m n) : Reordered (.array f m) (.array f n)
  | object (f : Facets) {ps qs : Entries Node} (nodup : ps.keys.Nodup) (names : ps.keys.Perm qs.keys)
    (values : ∀ key m n, ps.get? key = some m → qs.get? key = some n → Reordered m n) :
    Reordered (.object f ps) (.object f qs)

namespace PathTree

theorem keys_toNodes (named : Entries PathTree) : Entries.keys (toNodes named) = Entries.keys named := by
  induction named with
  | nil => rfl
  | cons p named ih => exact congrArg (p.1 :: ·) ih

theorem toNode_of_names {f : Option Node} {named : Entries PathTree} {element : Option PathTree} (h : named ≠ []) :
    toNode (.node f named element) = .object (wrapperFacets .object f) (toNodes named) := by
  obtain ⟨p, named, rfl⟩ := List.exists_cons_of_ne_nil h
  rfl

theorem mem_keys_iff_holds {f : Option Node} {named : Entries PathTree} {element : Option PathTree}
    (ht : Proper (.node f named element)) (key : String) :
    key ∈ Entries.keys named ↔ key ≠ elementSegment ∧ (holds (.node f named element) [key]).isSome := by
  obtain ⟨_, names, _, _⟩ := ht
  rw [Entries.mem_keys_iff, holds_cons, child?]
  by_cases hk : key = elementSegment
  · subst hk
    simp only [ne_eq, not_true_eq_false, false_and, iff_false, ← Entries.mem_keys_iff]
    exact names
  · cases h : Entries.get? named key <;> simp [hk, holds, part?]

/-- Trees that hold the same have the same schema, except for the order of properties. -/
theorem reordered_toNode {t t' : PathTree} (ht : Proper t) (ht' : Proper t') (h : ∀ q, t.holds q = t'.holds q) :
    t.toNode.Reordered t'.toNode := by
  induction ht generalizing t' with
  | @intro f named element nodup names parts elements ihp ihe =>
    have hproper : Proper (.node f named element) := .intro nodup names parts elements
    obtain ⟨f', named', element'⟩ := t'
    -- the own fragments and the parts under each segment hold the same
    have hf : f = f' := Option.some.inj (h [])
    have hchild : ∀ s q, (child? (.node f named element) s).bind (·.holds q) =
        (child? (.node f' named' element') s).bind (·.holds q) := by
      intro s q
      rw [← holds_cons, ← holds_cons]
      exact h (s :: q)
    have hkeys : ∀ key, key ∈ Entries.keys named ↔ key ∈ Entries.keys named' := fun key => by
      rw [mem_keys_iff_holds hproper, mem_keys_iff_holds ht', h]
    subst hf
    by_cases hnil : named = []
    · have hnil' : named' = [] := by
        have : Entries.keys named' = [] := List.eq_nil_iff_forall_not_mem.2 fun key hk => by
          simpa [hnil, Entries.keys] using (hkeys key).2 hk
        simpa [Entries.keys] using this
      subst hnil hnil'
      have helement : ∀ q, element.bind (·.holds q) = element'.bind (·.holds q) := by
        intro q
        simpa [child?] using hchild elementSegment q
      cases element with
      | none =>
        cases element' with
        | none => exact .same _
        | some u' => cases helement []
      | some u =>
        cases element' with
        | none => cases helement []
        | some u' => exact .array _ (ihe u rfl (ht'.child? (s := elementSegment) rfl) helement)
    · have hnil' : named' ≠ [] := by
        rintro rfl
        obtain ⟨p, rest, rfl⟩ := List.exists_cons_of_ne_nil hnil
        simpa [Entries.keys] using (hkeys p.1).1 List.mem_cons_self
      rw [toNode_of_names hnil, toNode_of_names hnil']
      obtain ⟨nodup', names', parts', _⟩ := ht'
      refine .object _ ?_ ?_ fun key m n hm hn => ?_
      · rw [keys_toNodes]
        exact nodup
      · rw [keys_toNodes, keys_toNodes]
        exact (List.perm_ext_iff_of_nodup nodup nodup').2 hkeys
      · rw [get?_toNodes] at hm hn
        obtain ⟨u, hu, rfl⟩ := Option.map_eq_some_iff.1 hm
        obtain ⟨u', hu', rfl⟩ := Option.map_eq_some_iff.1 hn
        have hk : key ≠ elementSegment := fun hk => names (hk ▸ Entries.mem_keys_iff.2 ⟨u, hu⟩)
        refine ihp _ (Entries.mem_of_get? hu) (parts' _ (Entries.mem_of_get? hu')) fun q => ?_
        simpa [child?, hk, hu, hu'] using hchild key q

end PathTree

section

variable {fragments fragments' : List (String × Node)} (hperm : fragments.Perm fragments')

include hperm

theorem reached_perm (q : List String) : Reached fragments q ↔ Reached fragments' q := by
  unfold Reached
  simp only [hperm.mem_iff]

/-- Without a path that is given twice, the last fragment of a path is the only one. -/
theorem lastFragment?_perm (hd : (fragments.map (pathSegments ·.1)).Nodup) (q : List String) :
    lastFragment? fragments q = lastFragment? fragments' q := by
  have hle : ∀ {xs ys : List (String × Node)}, xs.Perm ys → (xs.map (pathSegments ·.1)).Nodup → ∀ f,
      lastFragment? xs q = some f → lastFragment? ys q = some f := by
    intro xs ys hp hnodup f hf
    obtain ⟨e, he, rfl, rfl⟩ := exists_of_lastFragment? hf
    obtain ⟨g, hg⟩ := exists_lastFragment? (hp.mem_iff.1 he)
    obtain ⟨e', he', hsegments, rfl⟩ := exists_of_lastFragment? hg
    rw [hg, List.inj_on_of_nodup_map hnodup (hp.mem_iff.2 he') he hsegments]
  cases h : lastFragment? fragments q with
  | some f => exact (hle hperm hd f h).symm
  | none =>
    cases h' : lastFragment? fragments' q with
    | none => rfl
    | some f =>
      have := hle hperm.symm ((hperm.map _).nodup_iff.1 hd) f h'
      rw [h] at this
      cases this

theorem holds_pathTree_perm (hd : (fragments.map (pathSegments ·.1)).Nodup) (q : List String) :
    (pathTree fragments).holds q = (pathTree fragments').holds q := by
  cases q with
  | nil => exact congrArg some ((fragment_pathTree fragments).trans (fragment_pathTree fragments').symm)
  | cons s q =>
    rw [holds_pathTree fragments (List.cons_ne_nil s q), holds_pathTree fragments' (List.cons_ne_nil s q)]
    simp only [reached_perm hperm, lastFragment?_perm hperm hd]

end

/-- The order in which fragments are given only matters for the order of properties, if no path is given twice. -/
theorem reordered_expandPaths (fragments fragments' : List (String × Node)) (hperm : fragments.Perm fragments')
    (hd : (fragments.map (pathSegments ·.1)).Nodup) :
    (expandPaths fragments).Reordered (expandPaths fragments') :=
  PathTree.reordered_toNode (proper_pathTree fragments) (proper_pathTree fragments') (holds_pathTree_perm hperm hd)

/-- A child before its parent, and names beside elements. -/
theorem reordered_expandPaths_mixed :
    (expandPaths [("a.b.c", Node.string), ("a.*", Node.integer), (" a ", Node.objectOf [])]).Reordered
      (expandPaths [(" a ", Node.objectOf []), ("a.*", Node.integer), ("a.b.c", Node.string)]) :=
  reordered_expandPaths _ _ (List.reverse_perm _).symm (by decide +kernel)

end ApiSchema
