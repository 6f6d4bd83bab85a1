import ApiSchema.Entries
import Mathlib.Data.List.Forall2

/-!
# Entries and the pairs they come from

Of pairs that are set one after the other, the last one with a name counts (`get?_ofPairs`), and pairs with distinct
names are entries as they are (`ofPairs_of_nodup`). Entries that are picked from slots with distinct names tell which
slots are filled, and with what (`forall₂_filterMap_iff`).
-/
namespace ApiSchema

/-! ## Element by element -/

section

variable {α β ε : Type} {as : List α} {bs : List β}

theorem exists_of_forall₂ {R : α → β → Prop} (h : List.Forall₂ R as bs) :
    (∀ a ∈ as, ∃ b ∈ bs, R a b) ∧ ∀ b ∈ bs, ∃ a ∈ as, R a b := by
  induction h with
  | nil => exact ⟨nofun, nofun⟩
  | cons hab _ ih =>
    refine ⟨fun a ha => ?_, fun b hb => ?_⟩
    · rcases List.mem_cons.1 ha with rfl | ha
      · exact ⟨_, List.mem_cons_self, hab⟩
      · obtain ⟨b, hb, hR⟩ := ih.1 a ha
        exact ⟨b, List.mem_cons_of_mem _ hb, hR⟩
    · rcases List.mem_cons.1 hb with rfl | hb
      · exact ⟨_, List.mem_cons_self, hab⟩
      · obtain ⟨a, ha, hR⟩ := ih.2 b hb
        exact ⟨a, List.mem_cons_of_mem _ ha, hR⟩

theorem mapM_eq_some_iff {f : α → Option β} :
    as.mapM f = some bs ↔ List.Forall₂ (fun a b => f a = some b) as bs := by
  induction as generalizing bs with
  | nil => cases bs <;> simp
  | cons a as ih =>
    rw [List.mapM_cons]
    simp only [Option.bind_eq_bind, Option.bind_eq_some_iff, ih, List.forall₂_cons_left_iff]
    constructor
    · rintro ⟨b, hb, bs', hbs', h⟩
      exact ⟨b, bs', hb, hbs', (Option.some.inj h).symm⟩
    · rintro ⟨b, bs', hb, hbs', rfl⟩
      exact ⟨b, hb, bs', hbs', rfl⟩

theorem mapM_eq_ok_iff {f : α → Except ε β} :
    as.mapM f = .ok bs ↔ List.Forall₂ (fun a b => f a = .ok b) as bs := by
  induction as generalizing bs with
  | nil => cases bs <;> simp [pure, Except.pure]
  | cons a as ih =>
    rw [List.mapM_cons, List.forall₂_cons_left_iff]
    simp only [← ih]
    cases f a with
    | error e => simp [bind, Except.bind]
    | ok b => cases as.mapM f <;> simp [bind, Except.bind, pure, Except.pure, eq_comm]

end

namespace Entries

variable {α β : Type} {es : Entries α} {k : String}

/-! ## The last value of a name -/

/-- The value of the last of some pairs with a name. -/
def last? (pairs : List (String × α)) (k : String) : Option α := get? pairs.reverse k

theorem get?_append (xs ys : Entries α) (k : String) : get? (xs ++ ys) k = (get? xs k).or (get? ys k) := by
  induction xs with
  | nil => rfl
  | cons x xs ih =>
    obtain ⟨key, value⟩ := x
    by_cases h : key = k <;> simp [get?, h, ih]

@[simp]
theorem last?_nil (k : String) : last? ([] : List (String × α)) k = none := rfl

@[simp]
theorem last?_append (xs ys : List (String × α)) (k : String) : last? (xs ++ ys) k = (last? ys k).or (last? xs k) := by
  rw [last?, List.reverse_append, get?_append]
  rfl

theorem last?_singleton (key : String) (x : α) (k : String) :
    last? [(key, x)] k = if key = k then some x else none := by
  simp [last?, get?]

theorem last?_cons (key : String) (x : α) (pairs : List (String × α)) (k : String) :
    last? ((key, x) :: pairs) k = (last? pairs k).or (if key = k then some x else none) := by
  rw [← List.singleton_append, last?_append, last?_singleton]

theorem last?_map (f : α → β) (pairs : List (String × α)) (k : String) :
    last? (pairs.map fun p => (p.1, f p.2)) k = (last? pairs k).map f := by
  induction pairs with
  | nil => rfl
  | cons p pairs ih =>
    obtain ⟨key, x⟩ := p
    by_cases h : key = k <;> simp [last?_cons, ih, h]

/-- The last of the new values of a name counts, and otherwise the old one. -/
theorem get?_setAll (es : Entries α) (pairs : List (String × α)) (k : String) :
    get? (setAll es pairs) k = (last? pairs k).or (get? es k) := by
  induction pairs generalizing es with
  | nil => rfl
  | cons p pairs ih =>
    obtain ⟨key, x⟩ := p
    change get? (setAll (set es key x) pairs) k = _
    rw [ih, get?_set, last?_cons, Option.or_assoc]
    by_cases h : key = k <;> simp [h]

theorem get?_ofPairs (pairs : List (String × α)) (k : String) : get? (ofPairs pairs) k = last? pairs k := by
  rw [ofPairs, get?_setAll]
  exact Option.or_none

theorem nodup_keys_setAll {pairs : List (String × α)} (h : (keys es).Nodup) : (keys (setAll es pairs)).Nodup := by
  induction pairs generalizing es with
  | nil => exact h
  | cons p pairs ih => exact ih (nodup_keys_set p.1 p.2 h)

theorem nodup_keys_ofPairs (pairs : List (String × α)) : (keys (ofPairs pairs)).Nodup :=
  nodup_keys_setAll List.nodup_nil

theorem get?_isSome_iff : (get? es k).isSome ↔ k ∈ keys es := by
  induction es with
  | nil => simp [get?, keys]
  | cons e es ih =>
    obtain ⟨key, x⟩ := e
    simp only [keys] at ih
    by_cases h : key = k
    · simp [get?, keys, h]
    · simp [get?, keys, h, Ne.symm h, ih]

/-- With each name once, an entry is what its name stands for. -/
theorem get?_of_mem {e : String × α} (h : (keys es).Nodup) (he : e ∈ es) : get? es e.1 = some e.2 := by
  induction es with
  | nil => cases he
  | cons d es ih =>
    obtain ⟨hd, hes⟩ := List.nodup_cons.1 h
    rcases List.mem_cons.1 he with rfl | he
    · simp [get?]
    · have hne : d.1 ≠ e.1 := by
        intro heq
        have hmem : e.1 ∈ keys es := List.mem_map_of_mem he
        rw [← heq] at hmem
        exact hd hmem
      simpa [get?, hne] using ih hes he

theorem last?_eq_get? (h : (keys es).Nodup) (k : String) : last? es k = get? es k := by
  induction es with
  | nil => rfl
  | cons e es ih =>
    obtain ⟨key, x⟩ := e
    obtain ⟨hkey, hes⟩ := List.nodup_cons.1 h
    rw [last?_cons, ih hes]
    by_cases hk : key = k
    · subst hk
      have hnone : get? es key = none := by
        rw [← Option.not_isSome_iff_eq_none, get?_isSome_iff]
        exact hkey
      simp [get?, hnone]
    · simp [get?, hk]

/-! ## Distinct names -/

theorem set_of_not_mem {key : String} (h : key ∉ keys es) (v : α) : set es key v = es ++ [(key, v)] := by
  induction es with
  | nil => rfl
  | cons e es ih =>
    obtain ⟨hne, hes⟩ := not_or.1 (List.mem_cons.not.1 h)
    simp [set, Ne.symm hne, ih hes]

theorem ofPairs_of_nodup {pairs : List (String × α)} (h : (keys pairs).Nodup) : ofPairs pairs = pairs := by
  suffices hall : ∀ es : Entries α, (keys (es ++ pairs)).Nodup → setAll es pairs = es ++ pairs from hall [] h
  unfold setAll
  clear h
  induction pairs with
  | nil => simp
  | cons p pairs ih =>
    intro es h
    have hp : p.1 ∉ keys es := by
      intro hmem
      simp only [keys, List.map_append, List.map_cons] at h
      exact (List.nodup_append.1 h).2.2 p.1 hmem p.1 List.mem_cons_self rfl
    rw [List.foldl_cons, set_of_not_mem hp, ih (es ++ [p]) (by simpa using h), List.append_assoc, List.singleton_append]

/-! ## Entries of slots -/

section

variable {σ : Type} {slots : List σ} {key : σ → String} {R : α → α → Prop}

theorem keys_filterMap_sublist (slots : List σ) (f : σ → Option α) :
    (keys (slots.filterMap fun s => (f s).map (key s, ·))).Sublist (slots.map key) := by
  induction slots with
  | nil => exact List.Sublist.slnil
  | cons s slots ih =>
    cases h : f s with
    | none => simpa [h] using ih.cons (key s)
    | some v => simpa [h, keys] using ih

/-- A key that no slot has is missing among their entries. -/
theorem not_forall₂_filterMap {P : String × α → String × α → Prop} (hP : ∀ d e, P d e → d.1 = e.1)
    (hk : k ∉ slots.map key) (v : α) (es : List (String × α)) (f : σ → Option α) :
    ¬ List.Forall₂ P ((k, v) :: es) (slots.filterMap fun s => (f s).map (key s, ·)) := by
  intro h
  obtain ⟨e, rest, he, -, hentries⟩ := List.forall₂_cons_left_iff.1 h
  have hmem : e ∈ slots.filterMap fun s => (f s).map (key s, ·) := hentries ▸ List.mem_cons_self
  have hkey : k = e.1 := hP _ _ he
  exact hk (hkey ▸ (keys_filterMap_sublist slots f).subset (List.mem_map_of_mem hmem))

/-- Entries of slots with distinct keys are related if and only if the slots are: a slot that only one side fills has a
key that the other side lacks. -/
theorem forall₂_filterMap_iff (hkeys : (slots.map key).Nodup) (f g : σ → Option α) :
    List.Forall₂ (fun d e => d.1 = e.1 ∧ R d.2 e.2) (slots.filterMap fun s => (f s).map (key s, ·))
      (slots.filterMap fun s => (g s).map (key s, ·)) ↔ ∀ s ∈ slots, Option.Rel R (f s) (g s) := by
  induction slots with
  | nil => simp
  | cons s slots ih =>
    obtain ⟨hs, hslots⟩ := List.nodup_cons.1 hkeys
    rw [List.forall_mem_cons, ← ih hslots, List.filterMap_cons, List.filterMap_cons]
    cases f s with
    | none =>
      cases g s with
      | none => simp
      | some w =>
        refine iff_of_false (fun h => ?_) (fun h => nomatch h.1)
        exact not_forall₂_filterMap (fun d e hde => hde.1.symm) hs w _ f h.flip
    | some v =>
      cases g s with
      | none =>
        refine iff_of_false (fun h => ?_) (fun h => nomatch h.1)
        exact not_forall₂_filterMap (fun d e hde => hde.1) hs v _ g h
      | some w => simp

theorem rel_eq : Option.Rel (Eq (α := α)) = Eq := by
  ext o o'
  cases o <;> cases o' <;> simp

theorem filterMap_eq_iff (hkeys : (slots.map key).Nodup) (f g : σ → Option α) :
    slots.filterMap (fun s => (f s).map (key s, ·)) = slots.filterMap (fun s => (g s).map (key s, ·)) ↔
      ∀ s ∈ slots, f s = g s := by
  have hslots := forall₂_filterMap_iff (R := Eq) hkeys f g
  simpa only [← Prod.ext_iff, List.forall₂_eq_eq_eq, rel_eq] using hslots

end

end Entries

end ApiSchema
