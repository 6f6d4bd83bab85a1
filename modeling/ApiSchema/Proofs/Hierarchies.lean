import ApiSchema.Proofs.Alike
import ApiSchema.Proofs.Linearization

/-!
# Chains of ancestors

The classes of a library that a class can inherit from form a hierarchy (`Hierarchy`). In it the chain of a class is
always found, and it is the walk along the bases (`Hierarchy.exists_ancestorChain`). The order that merges the orders of
the bases is `Hierarchy.IsOrder`; the chain is that one if and only if it is orderly (`Hierarchy.chain_eq_iff`).
-/
namespace ApiSchema

open Ancestry

variable {r : Library}

def Located.qualifiedName (a : Located) : String := a.cls.qualifiedName

/-- The bases of a class that a library has. -/
def parentsIn (r : Library) (a : Located) : List Located := (result (newParents [] a) r).toOption.getD []

/-- Classes of a library that have all their bases among them. Bases that the library does not have are left out. -/
structure Hierarchy (r : Library) where
  classes : List Located
  /-- A class is known by its name. -/
  distinct : (classes.map Located.qualifiedName).Nodup
  found : ∀ a ∈ classes, Found r a
  closed : ∀ a ∈ classes, result (newParents [] a) r = .ok (parentsIn r a) ∧ parentsIn r a ⊆ classes

/-- The bases of a class that were not seen are the same whatever was read before. -/
theorem result_newParents {l : Library} {a : Located} {ps : List Located} (hl : Alike r l)
    (h : result (newParents [] a) r = .ok ps) (seen : List String) :
    result (newParents seen a) l = .ok (ps.filter fun p => !seen.contains p.qualifiedName) := by
  rw [(Reads.newParents seen a).alike hl]
  unfold newParents at h ⊢
  rw [result_bind] at h ⊢
  cases hfound : result (a.cls.bases.mapM fun base => resolveClass a.module (baseName base)) r with
  | error p =>
    rw [hfound] at h
    cases h
  | ok found =>
    rw [hfound] at h
    have hps : (found.filterMap id).filter (fun _ => true) = ps := Except.ok.inj h
    rw [List.filter_true] at hps
    rw [← hps]
    rfl

namespace Hierarchy

variable (h : Hierarchy r)

def named? (name : String) : Option Located := h.classes.find? (·.qualifiedName == name)

/-- The names of the bases of the class with a name. -/
def parents (name : String) : List String := (h.named? name).elim [] fun a => (parentsIn r a).map Located.qualifiedName

variable {h} {a : Located}

theorem named?_of_mem (ha : a ∈ h.classes) : h.named? a.qualifiedName = some a := by
  obtain ⟨b, hb⟩ : ∃ b, h.named? a.qualifiedName = some b :=
    Option.isSome_iff_exists.1 (List.find?_isSome.2 ⟨a, ha, BEq.rfl⟩)
  have hmem : b ∈ h.classes := List.mem_of_find?_eq_some hb
  have hname : b.qualifiedName = a.qualifiedName := by simpa using List.find?_some hb
  rw [hb, List.inj_on_of_nodup_map h.distinct hmem ha hname]

/-- With enough steps the pending classes have a chain, and it is the walk from them. -/
theorem exists_chainFrom (n : Nat) : ∀ seen pending l, Alike r l → pending ⊆ h.classes →
    pending.length + openBases seen r.classes ≤ n →
      ∃ chain, result (chainFrom n seen pending) l = .ok chain ∧ chain ⊆ h.classes ∧
        Walk h.parents seen (pending.map Located.qualifiedName) (chain.map Located.qualifiedName) := by
  induction n with
  | zero =>
    intro seen pending l _ _ hn
    obtain rfl : pending = [] := List.eq_nil_of_length_eq_zero (by omega)
    exact ⟨[], rfl, List.nil_subset _, .done⟩
  | succ n ih =>
    intro seen pending l hl hp hn
    cases pending with
    | nil => exact ⟨[], rfl, List.nil_subset _, .done⟩
    | cons a pending =>
      obtain ⟨ha, hp⟩ := List.cons_subset.1 hp
      rw [List.length_cons] at hn
      unfold chainFrom
      dsimp only
      by_cases hs : seen.contains a.cls.qualifiedName = true
      · rw [if_pos hs]
        obtain ⟨chain, hchain, hmem, hwalk⟩ := ih seen pending l hl hp (by omega)
        exact ⟨chain, hchain, hmem, .skip (List.contains_iff_mem.1 hs) hwalk⟩
      · rw [if_neg hs]
        obtain ⟨hparents, hin⟩ := h.closed a ha
        have hnew := result_newParents hl hparents (a.cls.qualifiedName :: seen)
        have hbound := openBases_step (h.found a ha).mem_classes (Bool.eq_false_iff.2 hs)
          (gives_newParents r _ a l hl _ hnew).1 hn
        have hreads : Reads (fun _ => True) (newParents (a.cls.qualifiedName :: seen) a) := .newParents _ a
        obtain ⟨chain, hchain, hmem, hwalk⟩ := ih _ _ _ (hl.learned (hreads.learned l))
          (List.append_subset.2 ⟨fun p hp => hin (List.mem_filter.1 hp).1, hp⟩) hbound
        refine ⟨a :: chain, ?_, List.cons_subset.2 ⟨ha, hmem⟩,
          .visit (fun hmem => hs (List.contains_iff_mem.2 hmem)) ?_⟩
        · rw [result_bind, hnew]
          dsimp only
          rw [result_bind, hchain]
          rfl
        · rw [List.map_append] at hwalk
          rw [parents, named?_of_mem ha, Option.elim_some, List.removeAll, List.filter_map]
          exact hwalk

theorem exists_ancestorChain (ha : a ∈ h.classes) :
    ∃ chain, result (ancestorChain a) r = .ok chain ∧ chain ⊆ h.classes ∧
      Walk h.parents [] [a.qualifiedName] (chain.map Located.qualifiedName) := by
  refine exists_chainFrom _ [] [a] r (.refl r) (List.cons_subset.2 ⟨ha, List.nil_subset _⟩) ?_
  rw [openBases_nil, List.length_singleton]
  omega

/-- The order of a class that merges the orders of its bases. -/
def IsOrder (h : Hierarchy r) (a : Located) (order : List Located) : Prop :=
  order ⊆ h.classes ∧ ∃ n, linearize h.parents n a.qualifiedName = some (order.map Located.qualifiedName)

/-- Classes of a hierarchy can be told from their names. -/
theorem filterMap_named? {as : List Located} (has : as ⊆ h.classes) :
    (as.map Located.qualifiedName).filterMap h.named? = as := by
  rw [List.filterMap_map]
  exact (List.filterMap_congr fun a ha => named?_of_mem (has ha)).trans List.filterMap_some

/-- The chain of a class is its order if and only if it is orderly. -/
theorem chain_eq_iff {chain order : List Located} (hchain : chain ⊆ h.classes)
    (hwalk : Walk h.parents [] [a.qualifiedName] (chain.map Located.qualifiedName)) (horder : h.IsOrder a order) :
    chain = order ↔ Orderly h.parents (chain.map Located.qualifiedName) := by
  obtain ⟨hmem, n, hn⟩ := horder
  rw [← eq_linearize_iff hwalk hn]
  refine ⟨congrArg _, fun heq => ?_⟩
  rw [← filterMap_named? hchain, heq, filterMap_named? hmem]

end Hierarchy

end ApiSchema
