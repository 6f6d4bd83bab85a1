import ApiSchema.Proofs.Entries
import Mathlib.Data.List.Nodup
import Mathlib.Data.List.Perm.Subperm

/-!
# Linear orders of ancestors

A class with several bases needs one order of its ancestors. The usual one merges the orders of the
bases: it takes a class as soon as no order still has another class before it, and of several such
classes the one of the first base (`linearize`). A walk from the class along its bases, depth first, is
simpler (`Walk`). The two give the same list if and only if the walk meets every class before its bases,
and those in their order (`linearize_iff_orderly`).
-/
namespace ApiSchema.Ancestry

variable {α : Type} [DecidableEq α]

/-! ## Merging orders -/

/-- A class that no list has after another one. -/
def isFree (ls : List (List α)) (c : α) : Bool := ls.all fun l => !l.tail.contains c

/-- The merged lists, in at most `n` steps. A class that is taken is free, so it is the first of every
list that has it. -/
def mergeFrom : Nat → List (List α) → Option (List α)
  | 0, ls => if ls.flatten.isEmpty then some [] else none
  | n + 1, ls =>
    match (ls.filterMap List.head?).find? (isFree ls) with
    | some c => (mergeFrom n (ls.map (·.filter (· != c)))).map (c :: ·)
    | none => if ls.flatten.isEmpty then some [] else none

def merge (ls : List (List α)) : Option (List α) := mergeFrom ls.flatten.length ls

/-- The order of a class and its ancestors, which are at most `n` bases away; none if the orders of the
bases contradict each other. -/
def linearize (parents : α → List α) : Nat → α → Option (List α)
  | 0, _ => none
  | n + 1, c => do
    let orders ← (parents c).mapM (linearize parents n)
    let rest ← merge (orders ++ [parents c])
    return c :: rest

section

variable {ls : List (List α)} {l l' T : List α} {c : α}

theorem isFree_iff : isFree ls c = true ↔ ∀ l ∈ ls, c ∉ l.tail := by
  simp [isFree]

/-- What a merge does: it is over, or takes a free class away. -/
theorem mergeFrom_cases {n : Nat} (h : mergeFrom n ls = some T) :
    (ls.flatten = [] ∧ T = []) ∨ ∃ m c T', n = m + 1 ∧ isFree ls c = true ∧ c ∈ ls.flatten ∧
      mergeFrom m (ls.map (·.filter (· != c))) = some T' ∧ T = c :: T' := by
  have hover : ∀ {T : List α}, (if ls.flatten.isEmpty then some [] else none) = some T →
      ls.flatten = [] ∧ T = [] := by
    intro T h
    split at h
    · rename_i hempty
      exact ⟨List.isEmpty_iff.1 hempty, (Option.some.inj h).symm⟩
    · cases h
  cases n with
  | zero => exact .inl (hover h)
  | succ m =>
    rw [mergeFrom] at h
    split at h
    · rename_i c hfind
      obtain ⟨T', hT', rfl⟩ := Option.map_eq_some_iff.1 h
      obtain ⟨l, hl, hhead⟩ := List.mem_filterMap.1 (List.mem_of_find?_eq_some hfind)
      have hmem : c ∈ ls.flatten := List.mem_flatten.2 ⟨l, hl, List.mem_of_mem_head? hhead⟩
      exact .inr ⟨m, c, T', rfl, List.find?_some hfind, hmem, hT', rfl⟩
    · exact .inl (hover h)

/-- Of a list in which a class is at most the first, the others are left. -/
theorem eq_or_eq_cons_filter (h : c ∉ l.tail) : l = l.filter (· != c) ∨ l = c :: l.filter (· != c) := by
  cases l with
  | nil => exact .inl rfl
  | cons a l =>
    have hl : l.filter (· != c) = l := by
      rw [List.filter_eq_self]
      intro x hx
      simpa using fun heq : x = c => h (heq ▸ hx)
    by_cases ha : a = c
    · right
      simp [ha, hl]
    · left
      simp [ha, hl]

/-- A merged list has all lists in it, and no other classes. -/
theorem sublist_of_mergeFrom {n : Nat} (h : mergeFrom n ls = some T) :
    (∀ l ∈ ls, l.Sublist T) ∧ ∀ x ∈ T, x ∈ ls.flatten := by
  induction T generalizing n ls with
  | nil =>
    obtain ⟨hempty, -⟩ | ⟨_, _, _, -, -, -, -, hT⟩ := mergeFrom_cases h
    · refine ⟨fun l hl => ?_, nofun⟩
      rw [List.flatten_eq_nil_iff.1 hempty l hl]
    · cases hT
  | cons c T ih =>
    obtain ⟨-, hT⟩ | ⟨m, c', T', -, hfree, hc, hrest, hT⟩ := mergeFrom_cases h
    · cases hT
    obtain ⟨rfl, rfl⟩ := List.cons.inj hT
    obtain ⟨hsub, hmem⟩ := ih hrest
    constructor
    · intro l hl
      have hl' : (l.filter (· != c)).Sublist T := hsub _ (List.mem_map_of_mem hl)
      rcases eq_or_eq_cons_filter (isFree_iff.1 hfree l hl) with heq | heq
      · rw [heq]
        exact hl'.cons c
      · rw [heq]
        exact hl'.cons_cons c
    · intro x hx
      rcases List.mem_cons.1 hx with rfl | hx
      · exact hc
      · obtain ⟨_, hl', hx'⟩ := List.mem_flatten.1 (hmem x hx)
        obtain ⟨l, hl, rfl⟩ := List.mem_map.1 hl'
        exact List.mem_flatten.2 ⟨l, hl, (List.mem_filter.1 hx').1⟩

/-- Lists in one are merged to it if it has their classes in the order of their first places. -/
theorem mergeFrom_of_sublist {n : Nat} (hT : T.Nodup) (hsub : ∀ l ∈ ls, l.Sublist T)
    (hfirst : ls.flatten.eraseDups = T) (hn : T.length ≤ n) : mergeFrom n ls = some T := by
  induction T generalizing n ls with
  | nil =>
    have hempty : ∀ l ∈ ls, l = [] := fun l hl => List.sublist_nil.1 (hsub l hl)
    have hflat : ls.flatten.isEmpty = true := List.isEmpty_iff.2 (List.flatten_eq_nil_iff.2 hempty)
    have hheads : ls.filterMap List.head? = [] := by
      refine List.filterMap_eq_nil_iff.2 fun l hl => ?_
      rw [hempty l hl]
      rfl
    cases n <;> simp [mergeFrom, hflat, hheads]
  | cons t T ih =>
    obtain ⟨ht, hT⟩ := List.nodup_cons.1 hT
    obtain ⟨n, rfl⟩ : ∃ m, n = m + 1 := ⟨n - 1, by rw [List.length_cons] at hn; omega⟩
    -- `t` is the first class of the first list that has one, and no list has it later on, so the merge
    -- takes it.
    have htail : ∀ l ∈ ls, t ∉ l.tail := by
      intro l hl hmem
      cases l with
      | nil => cases hmem
      | cons a l => exact ht ((hsub _ hl).tail.subset hmem)
    have hrest : ∀ l ∈ ls, (l.filter (· != t)).Sublist T := by
      intro l hl
      have hfilter := (hsub l hl).filter (· != t)
      rw [List.filter_cons_of_neg (by simp)] at hfilter
      exact hfilter.trans List.filter_sublist
    obtain ⟨rest, hflat, hdups⟩ : ∃ rest, ls.flatten = t :: rest ∧
        (rest.filter (· != t)).eraseDups = T := by
      cases hflat : ls.flatten with
      | nil => simp [hflat] at hfirst
      | cons a rest =>
        rw [hflat, List.eraseDups_cons] at hfirst
        obtain ⟨rfl, hdups⟩ := List.cons.inj hfirst
        exact ⟨rest, rfl, hdups⟩
    have hfirst' : (ls.map (·.filter (· != t))).flatten.eraseDups = T := by
      rw [← hdups, ← List.filter_flatten, hflat, List.filter_cons_of_neg (by simp)]
    have hfind : (ls.filterMap List.head?).find? (isFree ls) = some t := by
      have hhead : (ls.filterMap List.head?).head? = some t := by
        rw [List.head?_filterMap, ← List.head?_flatten, hflat]
        rfl
      obtain ⟨heads, hheads⟩ : ∃ heads, ls.filterMap List.head? = t :: heads := by
        cases hheads : ls.filterMap List.head? with
        | nil => simp [hheads] at hhead
        | cons a heads =>
          rw [hheads] at hhead
          cases hhead
          exact ⟨heads, rfl⟩
      rw [hheads, List.find?_cons_of_pos (isFree_iff.2 htail)]
    have hmerge : mergeFrom n (ls.map (·.filter (· != t))) = some T := by
      refine ih hT ?_ hfirst' (by rw [List.length_cons] at hn; omega)
      intro left hleft
      obtain ⟨l, hl, rfl⟩ := List.mem_map.1 hleft
      exact hrest l hl
    rw [mergeFrom, hfind]
    dsimp only
    rw [hmerge, Option.map_some]

theorem merge_of_sublist (hT : T.Nodup) (hsub : ∀ l ∈ ls, l.Sublist T)
    (hfirst : ls.flatten.eraseDups = T) :
    merge ls = some T := by
  have hmem : T ⊆ ls.flatten := by
    intro x hx
    rw [← hfirst, List.mem_eraseDups] at hx
    exact hx
  exact mergeFrom_of_sublist hT hsub hfirst (List.subperm_of_subset hT hmem).length_le

/-- With each class once, a list in another is what is left of that when the others are taken away. -/
theorem filter_mem_of_sublist (hT : T.Nodup) (h : l.Sublist T) : T.filter (· ∈ l) = l := by
  induction h with
  | slnil => rfl
  | cons a h ih =>
    obtain ⟨ha, hT⟩ := List.nodup_cons.1 hT
    have hl : a ∉ _ := fun hmem => ha (h.subset hmem)
    rw [List.filter_cons_of_neg (by simpa using hl), ih hT]
  | @cons_cons l T a h ih =>
    obtain ⟨ha, hT⟩ := List.nodup_cons.1 hT
    have hrest : T.filter (· ∈ a :: l) = T.filter (· ∈ l) := by
      refine List.filter_congr fun x hx => ?_
      have hne : x ≠ a := fun heq => ha (heq ▸ hx)
      simp [hne]
    rw [List.filter_cons_of_pos (by simp), hrest, ih hT]

/-- Of two lists in a third, one is in the other as soon as its classes are. -/
theorem sublist_of_subset (hT : T.Nodup) (hl : l.Sublist T) (hl' : l'.Sublist T) (h : l ⊆ l') :
    l.Sublist l' := by
  rw [← filter_mem_of_sublist hT hl, ← filter_mem_of_sublist hT hl']
  refine List.monotone_filter_right T fun x hx => ?_
  simpa using h (by simpa using hx)

end

/-! ## Orders of ancestors -/

section

variable {parents : α → List α} {c x : α} {l : List α} {n : Nat} (h : linearize parents n c = some l)

include h

theorem linearize_cases :
    ∃ m orders rest, n = m + 1 ∧ (parents c).mapM (linearize parents m) = some orders ∧
      merge (orders ++ [parents c]) = some rest ∧ l = c :: rest := by
  cases n with
  | zero => cases h
  | succ m =>
    simp only [linearize, Option.bind_eq_bind, Option.bind_eq_some_iff] at h
    obtain ⟨orders, horders, rest, hrest, h⟩ := h
    exact ⟨m, orders, rest, rfl, horders, hrest, (Option.some.inj h).symm⟩

theorem linearize_succ : linearize parents (n + 1) c = some l := by
  induction n generalizing c l with
  | zero => cases h
  | succ n ih =>
    obtain ⟨m, orders, rest, hm, horders, hrest, rfl⟩ := linearize_cases h
    cases hm
    have horders' : (parents c).mapM (linearize parents (n + 1)) = some orders :=
      mapM_eq_some_iff.2 ((mapM_eq_some_iff.1 horders).imp fun _ _ hp => ih hp)
    rw [linearize, horders']
    simp [hrest]

theorem linearize_of_le {m : Nat} (hm : n ≤ m) : linearize parents m c = some l := by
  induction hm with
  | refl => exact h
  | step _ ih => exact linearize_succ ih

theorem linearize_unique {m : Nat} {l' : List α} (h' : linearize parents m c = some l') : l = l' :=
  Option.some.inj
    ((linearize_of_le h (Nat.le_max_left n m)).symm.trans (linearize_of_le h' (Nat.le_max_right n m)))

theorem head?_linearize : l.head? = some c := by
  obtain ⟨_, _, _, -, -, -, rfl⟩ := linearize_cases h
  rfl

omit h in
/-- The order of a class has its bases in it, and every other class of it is in the order of a base. -/
theorem mem_linearize (h : linearize parents (n + 1) c = some l) : (c :: parents c).Sublist l ∧
    ∀ x ∈ l, x = c ∨ ∃ p order, linearize parents n p = some order ∧ order.Sublist l ∧ x ∈ order := by
  obtain ⟨m, orders, rest, hm, horders, hrest, rfl⟩ := linearize_cases h
  cases hm
  obtain ⟨hsub, hmem⟩ := sublist_of_mergeFrom hrest
  obtain ⟨hleft, hright⟩ := exists_of_forall₂ (mapM_eq_some_iff.1 horders)
  have horder : ∀ order ∈ orders, order.Sublist (c :: rest) := fun order ho =>
    (hsub order (List.mem_append_left _ ho)).cons c
  refine ⟨(hsub (parents c) (by simp)).cons_cons c, fun x hx => ?_⟩
  rcases List.mem_cons.1 hx with rfl | hx
  · exact .inl rfl
  · right
    obtain ⟨order, ho, hxo⟩ := List.mem_flatten.1 (hmem x hx)
    rcases List.mem_append.1 ho with ho | ho
    · obtain ⟨p, -, hp⟩ := hright order ho
      exact ⟨p, order, hp, horder order ho, hxo⟩
    · rw [List.mem_singleton.1 ho] at hxo
      obtain ⟨order, ho, hp⟩ := hleft x hxo
      exact ⟨x, order, hp, horder order ho, List.mem_of_mem_head? (head?_linearize hp)⟩

/-- Every class is before its bases, and those are in their order. -/
def Orderly (parents : α → List α) (l : List α) : Prop := ∀ x ∈ l, (x :: parents x).Sublist l

instance (parents : α → List α) (l : List α) : Decidable (Orderly parents l) :=
  inferInstanceAs (Decidable (∀ x ∈ l, (x :: parents x).Sublist l))

/-- The order of an ancestor is in the order of the class. -/
theorem exists_linearize_of_mem (hx : x ∈ l) :
    ∃ order, linearize parents n x = some order ∧ order.Sublist l ∧ (x :: parents x).Sublist order := by
  induction n generalizing c l with
  | zero => cases h
  | succ n ih =>
    obtain ⟨hparents, hmem⟩ := mem_linearize h
    rcases hmem x hx with rfl | ⟨p, order, hp, hsub, hx⟩
    · exact ⟨l, h, .refl l, hparents⟩
    · obtain ⟨order', hx', hsub', hparents⟩ := ih hp hx
      exact ⟨order', linearize_succ hx', hsub'.trans hsub, hparents⟩

theorem orderly_of_linearize : Orderly parents l := by
  intro x hx
  obtain ⟨order, -, hsub, hparents⟩ := exists_linearize_of_mem h hx
  exact hparents.trans hsub

end

/-! ## Walks -/

/-- A walk along the bases, depth first, from pending classes. Classes that were seen before are passed
over. -/
inductive Walk (parents : α → List α) : List α → List α → List α → Prop
  | done {seen : List α} : Walk parents seen [] []
  | skip {seen pending chain : List α} {c : α} (hc : c ∈ seen) (h : Walk parents seen pending chain) :
      Walk parents seen (c :: pending) chain
  | visit {seen pending chain : List α} {c : α} (hc : c ∉ seen)
      (h : Walk parents (c :: seen) ((parents c).removeAll (c :: seen) ++ pending) chain) :
      Walk parents seen (c :: pending) (c :: chain)

/-- The lists of the pending classes one after the other, without the classes that are in one before. -/
def blocks (L : α → List α) : List α → List α → List α
  | _, [] => []
  | seen, c :: pending =>
    if c ∈ seen then blocks L seen pending else L c ++ blocks L (L c ++ seen) pending

section

variable {parents : α → List α} {L L' : α → List α} {seen seen' pending chain : List α} {c : α}

theorem Walk.fresh (h : Walk parents seen pending chain) : chain.Nodup ∧ ∀ x ∈ chain, x ∉ seen := by
  induction h with
  | done => exact ⟨List.nodup_nil, nofun⟩
  | skip _ _ ih => exact ih
  | @visit seen pending chain c hc _ ih =>
    obtain ⟨hnodup, hfresh⟩ := ih
    refine ⟨List.nodup_cons.2 ⟨fun hmem => hfresh c hmem List.mem_cons_self, hnodup⟩, fun x hx => ?_⟩
    rcases List.mem_cons.1 hx with rfl | hx
    · exact hc
    · exact fun hs => hfresh x hx (List.mem_cons_of_mem c hs)

/-- Only the seen classes matter and the lists of the others. -/
theorem blocks_congr (hseen : ∀ x, x ∈ seen ↔ x ∈ seen') (hL : ∀ x ∈ pending, x ∉ seen → L x = L' x) :
    blocks L seen pending = blocks L' seen' pending := by
  induction pending generalizing seen seen' with
  | nil => rfl
  | cons c pending ih =>
    simp only [blocks, ← hseen]
    split
    · exact ih hseen fun x hx => hL x (List.mem_cons_of_mem c hx)
    · rename_i hc
      rw [hL c List.mem_cons_self hc]
      congr 1
      refine ih (fun x => by simp [hseen]) fun x hx hxs => hL x (List.mem_cons_of_mem c hx) ?_
      exact fun hmem => hxs (List.mem_append_right _ hmem)

theorem blocks_append (pending pending' : List α) :
    blocks L seen (pending ++ pending') =
      blocks L seen pending ++ blocks L (blocks L seen pending ++ seen) pending' := by
  induction pending generalizing seen with
  | nil => rfl
  | cons c pending ih =>
    simp only [List.cons_append, blocks]
    split
    · exact ih
    · rw [ih, List.append_assoc]
      congr 2
      exact blocks_congr (fun x => by simp [or_left_comm]) fun _ _ _ => rfl

/-- Classes that were seen, but are not pending, do not matter. -/
theorem blocks_of_fresh {done : List α} (h : ∀ x ∈ pending, x ∉ seen) :
    blocks L (done ++ seen) pending = blocks L done pending := by
  induction pending generalizing done with
  | nil => rfl
  | cons c pending ih =>
    have hrest : ∀ x ∈ pending, x ∉ seen := fun x hx => h x (List.mem_cons_of_mem c hx)
    have hc : c ∈ done ++ seen ↔ c ∈ done := by simp [h c List.mem_cons_self]
    simp only [blocks, hc, ← List.append_assoc, ih hrest]

/-- Lists that hold the lists of their classes. -/
def Nested (L : α → List α) (pending : List α) : Prop :=
  ∀ q ∈ pending, q ∈ L q ∧ ∀ x ∈ L q, L x ⊆ L q

omit [DecidableEq α] in
/-- With the list of a class all of its classes are seen. -/
theorem Nested.append (hL : Nested L (c :: pending))
    (hseen : ∀ x ∈ c :: pending, x ∈ seen → L x ⊆ seen) :
    ∀ x ∈ pending, x ∈ L c ++ seen → L x ⊆ L c ++ seen := by
  intro x hx hmem
  rcases List.mem_append.1 hmem with hmem | hmem
  · exact List.subset_append_of_subset_left _ ((hL c List.mem_cons_self).2 x hmem)
  · exact List.subset_append_of_subset_right _ (hseen x (List.mem_cons_of_mem c hx) hmem)

theorem subset_blocks (hL : Nested L pending) (hseen : ∀ x ∈ pending, x ∈ seen → L x ⊆ seen) :
    ∀ p ∈ pending, L p ⊆ seen ++ blocks L seen pending := by
  induction pending generalizing seen with
  | nil => exact nofun
  | cons c pending ih =>
    have hrest : Nested L pending := fun q hq => hL q (List.mem_cons_of_mem c hq)
    intro p hp x hx
    by_cases hc : c ∈ seen
    · rw [blocks, if_pos hc]
      rcases List.mem_cons.1 hp with rfl | hp
      · exact List.mem_append_left _ (hseen p List.mem_cons_self hc hx)
      · exact ih hrest (fun y hy => hseen y (List.mem_cons_of_mem c hy)) p hp hx
    · rw [blocks, if_neg hc]
      rcases List.mem_cons.1 hp with rfl | hp
      · simp [hx]
      · have hmem := ih hrest (hL.append hseen) p hp hx
        simp only [List.mem_append] at hmem ⊢
        tauto

theorem eraseDups_of_nodup {l : List α} (h : l.Nodup) : l.eraseDups = l := by
  induction l with
  | nil => rfl
  | cons a l ih =>
    obtain ⟨ha, hl⟩ := List.nodup_cons.1 h
    have hfilter : l.filter (fun b => !b == a) = l := by
      rw [List.filter_eq_self]
      intro x hx
      simpa using fun heq : x = a => ha (heq ▸ hx)
    rw [List.eraseDups_cons, hfilter, ih hl]

/-- The classes of the blocks are in the order of their first places. -/
theorem blocks_eq_eraseDups (hL : Nested L pending) (hseen : ∀ x ∈ pending, x ∈ seen → L x ⊆ seen)
    (hnodup : (blocks L seen pending).Nodup) (hfresh : ∀ x ∈ blocks L seen pending, x ∉ seen) :
    blocks L seen pending = ((pending.flatMap L).removeAll seen).eraseDups := by
  induction pending generalizing seen with
  | nil => rfl
  | cons c pending ih =>
    have hrest : Nested L pending := fun q hq => hL q (List.mem_cons_of_mem c hq)
    have hsplit : ((c :: pending).flatMap L).removeAll seen =
        (L c).removeAll seen ++ (pending.flatMap L).removeAll seen := by
      simp [List.removeAll]
    rw [hsplit]
    by_cases hc : c ∈ seen
    · have hnone : (L c).removeAll seen = [] := by
        refine List.filter_eq_nil_iff.2 fun x hx => ?_
        simpa using hseen c List.mem_cons_self hc hx
      rw [blocks, if_pos hc] at hnodup hfresh ⊢
      rw [hnone, List.nil_append]
      exact ih hrest (fun x hx => hseen x (List.mem_cons_of_mem c hx)) hnodup hfresh
    · rw [blocks, if_neg hc] at hnodup hfresh ⊢
      obtain ⟨hc', hpending, hapart⟩ := List.nodup_append.1 hnodup
      have hall : (L c).removeAll seen = L c := by
        refine List.filter_eq_self.2 fun x hx => ?_
        simpa using hfresh x (List.mem_append_left _ hx)
      have hfresh' : ∀ x ∈ blocks L (L c ++ seen) pending, x ∉ L c ++ seen := by
        intro x hx hmem
        rcases List.mem_append.1 hmem with hmem | hmem
        · exact hapart x hmem x hx rfl
        · exact hfresh x (List.mem_append_right _ hx) hmem
      have hremove : ((pending.flatMap L).removeAll seen).removeAll (L c) =
          (pending.flatMap L).removeAll (L c ++ seen) := by
        simp [List.removeAll, List.filter_filter]
      rw [hall, List.eraseDups_append, eraseDups_of_nodup hc', hremove,
        ← ih hrest (hL.append hseen) hpending hfresh']

/-- The orders of the bases are merged to their blocks, if all of them are in one list. -/
theorem linearize_of_orders {n : Nat} {T : List α} (hT : T.Nodup)
    (horders : ∀ x ∈ T, linearize parents n x = some (L x) ∧ (L x).Sublist T)
    (hparents : (parents c).Sublist T) (hblocks : (blocks L [] (parents c)).Sublist T) :
    linearize parents (n + 1) c = some (c :: blocks L [] (parents c)) := by
  have hmem : ∀ p ∈ parents c, p ∈ T := fun p hp => hparents.subset hp
  have hself : ∀ p ∈ parents c, p ∈ L p :=
    fun p hp => List.mem_of_mem_head? (head?_linearize (horders p (hmem p hp)).1)
  have hnested : Nested L (parents c) := by
    refine fun q hq => ⟨hself q hq, fun x hx => ?_⟩
    obtain ⟨hlin, hsub⟩ := horders q (hmem q hq)
    obtain ⟨order, horder, hinner, -⟩ := exists_linearize_of_mem hlin hx
    rw [(horders x (hsub.subset hx)).1] at horder
    cases horder
    exact hinner.subset
  have hsubset : ∀ p ∈ parents c, L p ⊆ [] ++ blocks L [] (parents c) := subset_blocks hnested nofun
  have hlists : ∀ l ∈ (parents c).map L ++ [parents c], l.Sublist (blocks L [] (parents c)) := by
    intro l hl
    rcases List.mem_append.1 hl with hl | hl
    · obtain ⟨p, hp, rfl⟩ := List.mem_map.1 hl
      exact sublist_of_subset hT (horders p (hmem p hp)).2 hblocks (hsubset p hp)
    · rw [List.mem_singleton.1 hl]
      exact sublist_of_subset hT hparents hblocks fun p hp => hsubset p hp (hself p hp)
  have hnodup : (blocks L [] (parents c)).Nodup := hblocks.nodup hT
  have hfirst : ((parents c).map L ++ [parents c]).flatten.eraseDups = blocks L [] (parents c) := by
    have hnone : (parents c).removeAll ((parents c).flatMap L) = [] := by
      refine List.filter_eq_nil_iff.2 fun p hp => ?_
      simpa using ⟨p, hp, hself p hp⟩
    have hflat : ((parents c).map L ++ [parents c]).flatten = (parents c).flatMap L ++ parents c := by
      simp [List.flatMap]
    have hdups : blocks L [] (parents c) = (((parents c).flatMap L).removeAll []).eraseDups :=
      blocks_eq_eraseDups hnested nofun hnodup fun _ _ => List.not_mem_nil
    rw [hflat, List.eraseDups_append, hnone, hdups]
    simp [List.removeAll]
  have horder : (parents c).mapM (linearize parents n) = some ((parents c).map L) := by
    rw [mapM_eq_some_iff, List.forall₂_map_right_iff, List.forall₂_same]
    exact fun p hp => (horders p (hmem p hp)).1
  rw [linearize, horder]
  simp [merge_of_sublist hnodup hlists hfirst]

/-- In an orderly walk every class has an order, which is in the chain, and the chain consists of the
orders of the pending classes that were not seen before. -/
theorem Walk.exists_orders (h : Walk parents seen pending chain) (ho : Orderly parents chain) :
    ∃ (n : Nat) (L : α → List α),
      (∀ x ∈ chain, linearize parents n x = some (L x) ∧ (L x).Sublist chain) ∧
      chain = blocks L seen pending := by
  induction h with
  | done => exact ⟨0, fun _ => [], nofun, rfl⟩
  | skip hc _ ih =>
    obtain ⟨n, L, horders, hchain⟩ := ih ho
    exact ⟨n, L, horders, by rw [blocks, if_pos hc]; exact hchain⟩
  | @visit seen pending chain c hc h ih =>
    obtain ⟨hnodup, hfresh⟩ := h.fresh
    have hparents : (parents c).Sublist chain := List.cons_sublist_cons.1 (ho c List.mem_cons_self)
    have hchain : Orderly parents chain := by
      intro x hx
      rcases List.sublist_cons_iff.1 (ho x (List.mem_cons_of_mem c hx)) with hsub | ⟨_, heq, -⟩
      · exact hsub
      · cases heq
        exact absurd List.mem_cons_self (hfresh c hx)
    obtain ⟨n, L, horders, hblocks⟩ := ih hchain
    -- The bases of `c` are in the rest of the chain, so none of them was seen when `c` was visited.
    have hnew : (parents c).removeAll (c :: seen) = parents c := by
      refine List.filter_eq_self.2 fun p hp => ?_
      simpa using hfresh p (hparents.subset hp)
    have hbases : blocks L ([] ++ c :: seen) (parents c) = blocks L [] (parents c) :=
      blocks_of_fresh fun p hp => hfresh p (hparents.subset hp)
    rw [List.nil_append] at hbases
    rw [hnew, blocks_append, hbases] at hblocks
    have hsub : (blocks L [] (parents c)).Sublist chain := by
      rw [hblocks]
      exact List.sublist_append_left _ _
    have hc' : linearize parents (n + 1) c = some (c :: blocks L [] (parents c)) :=
      linearize_of_orders hnodup horders hparents hsub
    have hne : ∀ x ∈ chain, x ≠ c := by
      rintro x hx rfl
      exact hfresh x hx List.mem_cons_self
    -- The orders of the rest stay as they are, and `c` gets its own.
    refine ⟨n + 1, Function.update L c (c :: blocks L [] (parents c)), fun x hx => ?_, ?_⟩
    · rcases List.mem_cons.1 hx with rfl | hx
      · rw [Function.update_self]
        exact ⟨hc', hsub.cons_cons x⟩
      · rw [Function.update_of_ne (hne x hx)]
        exact ⟨linearize_succ (horders x hx).1, (horders x hx).2.cons c⟩
    · rw [blocks, if_neg hc, Function.update_self]
      conv_lhs => rw [hblocks]
      rw [List.cons_append]
      congr 2
      refine blocks_congr (fun x => by simp [or_left_comm]) fun x _ hx => ?_
      rw [Function.update_of_ne]
      rintro rfl
      simp at hx

/-- A walk gives the order of a class if and only if it is orderly. -/
theorem linearize_iff_orderly (h : Walk parents [] [c] chain) :
    (∃ n, linearize parents n c = some chain) ↔ Orderly parents chain := by
  constructor
  · rintro ⟨n, hn⟩
    exact orderly_of_linearize hn
  · intro ho
    obtain ⟨n, L, horders, hchain⟩ := h.exists_orders ho
    rw [blocks, if_neg (by simp), blocks, List.append_nil] at hchain
    have hc : c ∈ chain := by
      cases h with
      | skip hc => cases hc
      | visit => exact List.mem_cons_self
    exact ⟨n, by rw [(horders c hc).1, ← hchain]⟩

theorem eq_linearize_iff {n : Nat} {l : List α} (h : Walk parents [] [c] chain)
    (hl : linearize parents n c = some l) :
    chain = l ↔ Orderly parents chain := by
  rw [← linearize_iff_orderly h]
  constructor
  · rintro rfl
    exact ⟨n, hl⟩
  · rintro ⟨m, hm⟩
    exact linearize_unique hm hl

end

end ApiSchema.Ancestry
