import ApiSchema.Proofs.Hierarchies
import ApiSchema.Proofs.Firm
import ApiSchema.Proofs.Resolution
import Mathlib.Logic.Relation

/-!
# The order of a chain of ancestors

A library makes the chain of a class with one list of pending classes. The bases of a class come before what was
pending, and some of them may be pending twice. The chain is the one that the recursive search gives (`Search`): it goes
through the bases of a class from left to right, each with all that is below it, and passes over a class that it has met
before. That holds for cycles and diamonds as well (`exists_search_or_unreadable`).

The one thing that keeps a class from having a chain is a base that cannot be looked up: the way to it leads through a
module that is there and fails with a problem that no handler takes (`result_ancestorChain_preorder`,
`unreadable_base`).
-/
namespace ApiSchema

open Source

/-! ## Recursive search -/

/-- The search from some classes, in their order, with the classes that it has met before. -/
inductive Search {α : Type} (parents : α → List α) : List α → List α → List α → Prop
  | done {seen : List α} : Search parents seen [] []
  | again {seen cs found : List α} {c : α} (hc : c ∈ seen) (h : Search parents seen cs found) :
      Search parents seen (c :: cs) found
  | first {seen cs below rest : List α} {c : α} (hc : c ∉ seen) (hbelow : Search parents (c :: seen) (parents c) below)
      (hrest : Search parents (below ++ c :: seen) cs rest) : Search parents seen (c :: cs) (c :: below ++ rest)

namespace Search

variable {α : Type} {parents : α → List α} {seen seen' cs ds found found' : List α} {a c x : α}

/-- Only which classes were met before matters. -/
theorem congr (h : Search parents seen cs found) (hseen : ∀ x, x ∈ seen ↔ x ∈ seen') :
    Search parents seen' cs found := by
  induction h generalizing seen' with
  | done => exact .done
  | again hc _ ih => exact .again ((hseen _).1 hc) (ih hseen)
  | first hc _ _ ihbelow ihrest =>
    refine .first (fun hmem => hc ((hseen _).2 hmem)) (ihbelow fun x => ?_) (ihrest fun x => ?_)
    · rw [List.mem_cons, List.mem_cons, hseen]
    · rw [List.mem_append, List.mem_append, List.mem_cons, List.mem_cons, hseen]

theorem unique (h : Search parents seen cs found) (h' : Search parents seen cs found') : found = found' := by
  induction h generalizing found' with
  | done =>
    cases h'
    rfl
  | again hc _ ih =>
    cases h' with
    | again _ h' => exact ih h'
    | first hc' _ _ => exact absurd hc hc'
  | first hc _ _ ihbelow ihrest =>
    cases h' with
    | again hc' _ => exact absurd hc' hc
    | first _ hbelow hrest =>
      obtain rfl := ihbelow hbelow
      rw [ihrest hrest]

/-- What is searched after some classes is searched with all that was found below them. -/
theorem exists_of_append (h : Search parents seen (cs ++ ds) found) :
    ∃ below rest, Search parents seen cs below ∧ Search parents (below ++ seen) ds rest ∧ found = below ++ rest := by
  induction cs generalizing seen found with
  | nil => exact ⟨[], found, .done, h, rfl⟩
  | cons c cs ih =>
    cases h with
    | again hc h =>
      obtain ⟨below, rest, hbelow, hrest, rfl⟩ := ih h
      exact ⟨below, rest, .again hc hbelow, hrest, rfl⟩
    | @first _ _ below rest _ hc hbelow h =>
      obtain ⟨more, rest, hmore, hrest, rfl⟩ := ih h
      refine ⟨c :: below ++ more, rest, .first hc hbelow hmore, hrest.congr fun x => ?_, (List.append_assoc _ _ _).symm⟩
      simp only [List.mem_append, List.mem_cons]
      tauto

/-- Classes that were met before may be left out or not. -/
theorem of_filter {keep : α → Bool} (hkeep : ∀ c ∈ cs, keep c = false → c ∈ seen)
    (h : Search parents seen (cs.filter keep) found) : Search parents seen cs found := by
  induction cs generalizing seen found with
  | nil => exact h
  | cons c cs ih =>
    have hrest : ∀ d ∈ cs, keep d = false → d ∈ seen := fun d hd => hkeep d (List.mem_cons_of_mem c hd)
    cases hc : keep c with
    | false =>
      rw [List.filter_cons_of_neg (by simp [hc])] at h
      exact .again (hkeep c List.mem_cons_self hc) (ih hrest h)
    | true =>
      rw [List.filter_cons_of_pos hc] at h
      cases h with
      | again hmet h => exact .again hmet (ih hrest h)
      | first hnew hbelow h =>
        exact .first hnew hbelow
          (ih (fun d hd hk => List.mem_append_right _ (List.mem_cons_of_mem c (hrest d hd hk))) h)

/-- One step of the loop is one of the search: the bases that were not met before are searched ahead of what is
pending. -/
theorem of_step {keep : α → Bool} (hc : c ∉ seen) (hkeep : ∀ p ∈ parents c, keep p = false → p ∈ c :: seen)
    (h : Search parents (c :: seen) ((parents c).filter keep ++ cs) found) :
    Search parents seen (c :: cs) (c :: found) := by
  obtain ⟨below, rest, hbelow, hrest, rfl⟩ := h.exists_of_append
  exact .first hc (hbelow.of_filter hkeep) hrest

/-- No class is found twice, or if it was met before. -/
theorem fresh (h : Search parents seen cs found) : found.Nodup ∧ ∀ x ∈ found, x ∉ seen := by
  induction h with
  | done => exact ⟨List.nodup_nil, nofun⟩
  | again _ _ ih => exact ih
  | @first seen cs below rest c hc _ _ ihbelow ihrest =>
    have hdisjoint : ∀ x ∈ c :: below, x ∉ rest := by
      intro x hx hmem
      refine ihrest.2 x hmem ?_
      rw [List.mem_append, List.mem_cons]
      rcases List.mem_cons.1 hx with rfl | hx
      · exact .inr (.inl rfl)
      · exact .inl hx
    have hnew : ∀ x ∈ below, x ≠ c ∧ x ∉ seen := fun x hx => by simpa [not_or] using ihbelow.2 x hx
    constructor
    · refine List.nodup_append'.2 ⟨List.nodup_cons.2 ⟨fun hmem => (hnew c hmem).1 rfl, ihbelow.1⟩, ihrest.1, ?_⟩
      exact fun x hx hmem => hdisjoint x hx hmem
    · intro x hx hs
      rcases List.mem_append.1 hx with hx | hx
      · rcases List.mem_cons.1 hx with rfl | hx
        · exact hc hs
        · exact (hnew x hx).2 hs
      · exact ihrest.2 x hx (List.mem_append_right _ (List.mem_cons_of_mem c hs))

theorem reaches (h : Search parents seen cs found) :
    ∀ x ∈ found, ∃ c ∈ cs, Relation.ReflTransGen (fun c p => p ∈ parents c) c x := by
  induction h with
  | done => exact nofun
  | again _ _ ih =>
    intro x hx
    obtain ⟨c, hc, hreach⟩ := ih x hx
    exact ⟨c, List.mem_cons_of_mem _ hc, hreach⟩
  | @first seen cs below rest c _ _ _ ihbelow ihrest =>
    intro x hx
    rcases List.mem_append.1 hx with hx | hx
    · rcases List.mem_cons.1 hx with rfl | hx
      · exact ⟨x, List.mem_cons_self, .refl⟩
      · obtain ⟨p, hp, hreach⟩ := ihbelow x hx
        exact ⟨c, List.mem_cons_self, .head hp hreach⟩
    · obtain ⟨d, hd, hreach⟩ := ihrest x hx
      exact ⟨d, List.mem_cons_of_mem _ hd, hreach⟩

/-- The search meets the classes that it starts from, and the bases of what it finds. -/
theorem closed (h : Search parents seen cs found) :
    cs ⊆ found ++ seen ∧ ∀ x ∈ found, parents x ⊆ found ++ seen := by
  induction h with
  | done => exact ⟨List.nil_subset _, nofun⟩
  | again hc _ ih => exact ⟨List.cons_subset.2 ⟨List.mem_append_right _ hc, ih.1⟩, ih.2⟩
  | @first seen cs below rest c _ _ _ ihbelow ihrest =>
    have hmore : below ++ c :: seen ⊆ (c :: below ++ rest) ++ seen := by
      intro x hx
      simp only [List.mem_append, List.mem_cons] at hx ⊢
      tauto
    have hall : rest ++ (below ++ c :: seen) ⊆ (c :: below ++ rest) ++ seen := by
      refine List.append_subset.2 ⟨fun x hx => ?_, hmore⟩
      exact List.mem_append_left _ (List.mem_append_right _ hx)
    refine ⟨List.cons_subset.2 ⟨List.mem_append_left _ List.mem_cons_self, List.Subset.trans ihrest.1 hall⟩,
      fun x hx => ?_⟩
    rcases List.mem_append.1 hx with hx | hx
    · rcases List.mem_cons.1 hx with rfl | hx
      · exact List.Subset.trans ihbelow.1 hmore
      · exact List.Subset.trans (ihbelow.2 x hx) hmore
    · exact List.Subset.trans (ihrest.2 x hx) hall

theorem mem_iff (h : Search parents [] [a] found) :
    x ∈ found ↔ Relation.ReflTransGen (fun c p => p ∈ parents c) a x := by
  obtain ⟨hstart, hclosed⟩ := h.closed
  rw [List.append_nil] at hstart
  constructor
  · intro hx
    obtain ⟨c, hc, hreach⟩ := h.reaches x hx
    rwa [List.mem_singleton.1 hc] at hreach
  · intro hreach
    induction hreach with
    | refl => exact hstart (List.mem_singleton_self a)
    | @tail y z _ hz ih =>
      have hsub := hclosed y ih
      rw [List.append_nil] at hsub
      exact hsub hz

theorem head?_eq (h : Search parents [] [a] found) : found.head? = some a := by
  cases h with
  | again hc _ => cases hc
  | first _ _ _ => rfl

end Search

/-! ## Bases in a library -/

variable {α β : Type} {r : Library} {a b : Located}

theorem result_mapM {f : α → Inference β} (hf : ∀ a, Reads (fun _ => True) (f a)) {as : List α} {bs : List β} :
    result (as.mapM f) r = .ok bs ↔ List.Forall₂ (fun a b => result (f a) r = .ok b) as bs := by
  induction as generalizing bs with
  | nil =>
    rw [List.mapM_nil, List.forall₂_nil_left_iff, result_pure]
    exact ⟨fun h => (Except.ok.inj h).symm, fun h => by rw [h]⟩
  | cons a as ih =>
    have hrest : ∀ b, Reads (fun _ => True) (as.mapM f >>= fun bs => pure (b :: bs)) := fun b =>
      .bind (.mapM hf as) fun _ => .pure _
    rw [List.mapM_cons, List.forall₂_cons_left_iff]
    constructor
    · intro h
      obtain ⟨b, hb, h⟩ := Reads.bind_ok (hf a) hrest h
      obtain ⟨bs', hbs, h⟩ := Reads.bind_ok (.mapM hf as) (fun _ => .pure _) h
      cases h
      exact ⟨b, bs', hb, ih.1 hbs, rfl⟩
    · rintro ⟨b, bs', hb, hbs, rfl⟩
      rw [Reads.result_bind (hf a) (hrest b) hb]
      exact Reads.result_bind (f := fun bs => pure (b :: bs)) (.mapM hf as) (.pure _) (ih.2 hbs)

/-- The bases of a class that stand for classes of the library. -/
def basesIn (r : Library) (a : Located) : List Located :=
  a.cls.bases.filterMap fun base => (result (resolveClass a.module (baseName base)) r).toOption.join

/-- Every base of a class can be looked up, whether there is a class for it or not. -/
def Readable (r : Library) (a : Located) : Prop :=
  ∀ base ∈ a.cls.bases, ∃ found, result (resolveClass a.module (baseName base)) r = .ok found

/-- A class can be reached from another through bases in the library. -/
def Reaches (r : Library) : Located → Located → Prop := Relation.ReflTransGen fun a b => b ∈ basesIn r a

theorem result_newParents_of_readable (h : Readable r a) : result (newParents [] a) r = .ok (basesIn r a) := by
  have hfound : result (a.cls.bases.mapM fun base => resolveClass a.module (baseName base)) r =
      .ok (a.cls.bases.map fun base => (result (resolveClass a.module (baseName base)) r).toOption.join) := by
    rw [result_mapM fun _ => .resolveClass _ _, List.forall₂_map_right_iff, List.forall₂_same]
    intro base hbase
    obtain ⟨o, ho⟩ := h base hbase
    rw [ho]
    rfl
  unfold newParents basesIn
  rw [result_bind, hfound]
  dsimp only
  rw [result_pure, List.filterMap_map, Function.id_comp]
  simp

theorem readable_of_newParents {seen : List String} {ps : List Located} (h : result (newParents seen a) r = .ok ps) :
    Readable r a := by
  unfold newParents at h
  obtain ⟨found, hfound, -⟩ := Reads.bind_ok (.mapM (fun _ => .resolveClass _ _) _) (fun _ => .pure _) h
  intro base hbase
  obtain ⟨o, -, ho⟩ := (exists_of_forall₂ ((result_mapM fun _ => .resolveClass _ _).1 hfound)).1 base hbase
  exact ⟨o, ho⟩

/-- Without a module that fails for good every base can be looked up. -/
theorem readable_of_absorbed (h : ∀ p, Unloaded r p → p.isAbsorbed = true) (a : Located) : Readable r a := by
  intro base _
  cases hbase : result (resolveClass a.module (baseName base)) r with
  | ok found => exact ⟨found, rfl⟩
  | error p =>
    have hfirm : Firm (resolveClass a.module (baseName base)) := .bind (.resolveName _ _) fun _ => .findClass _
    obtain ⟨hp, hunloaded⟩ := hfirm.unloaded (.resolveClass _ _) hbase
    exact absurd (hp.symm.trans (h p hunloaded)) Bool.false_ne_true

theorem found_of_mem_basesIn (h : b ∈ basesIn r a) : Found r b := by
  obtain ⟨base, -, hbase⟩ := List.mem_filterMap.1 h
  cases ho : result (resolveClass a.module (baseName base)) r with
  | error p =>
    rw [ho] at hbase
    cases hbase
  | ok o =>
    rw [ho] at hbase
    exact gives_resolveClass r _ _ r (.refl r) o ho b hbase

theorem Reaches.found (h : Reaches r a b) (ha : Found r a) : Found r b := by
  induction h with
  | refl => exact ha
  | tail _ hb _ => exact found_of_mem_basesIn hb

/-! ## The loop and the search -/

section

variable {l : Library} {n : Nat} {names : List String} {pending : List Located}

theorem result_chainFrom_met (hs : names.contains a.qualifiedName = true) :
    result (chainFrom (n + 1) names (a :: pending)) l = result (chainFrom n names pending) l := by
  unfold Located.qualifiedName at hs
  rw [chainFrom, if_pos hs]

theorem result_chainFrom_new (hs : names.contains a.qualifiedName = false) :
    result (chainFrom (n + 1) names (a :: pending)) l =
      (result (newParents (a.qualifiedName :: names) a) l).bind fun ps =>
      (result (chainFrom n (a.qualifiedName :: names) (ps ++ pending))
        (after (newParents (a.qualifiedName :: names) a) l)).map (a :: ·) := by
  unfold Located.qualifiedName at hs ⊢
  rw [chainFrom, if_neg (Bool.eq_false_iff.1 hs), result_bind]
  cases result (newParents (a.cls.qualifiedName :: names) a) l with
  | error p => rfl
  | ok ps =>
    dsimp only
    rw [result_bind, Except.bind]
    cases result (chainFrom n (a.cls.qualifiedName :: names) (ps ++ pending)) _ <;> rfl

end

/-- The names of some classes tell which classes they are. -/
theorem contains_qualifiedName (hr : r.Sound) {seen : List Located} (hseen : ∀ s ∈ seen, Found r s) (ha : Found r a) :
    (seen.map Located.qualifiedName).contains a.qualifiedName = true ↔ a ∈ seen := by
  rw [List.contains_iff_mem]
  constructor
  · intro h
    obtain ⟨s, hs, hname⟩ := List.mem_map.1 h
    rwa [← (hseen s hs).eq_of_qualifiedName hr ha hname]
  · exact fun h => List.mem_map_of_mem h

/-- With enough steps the loop ends with what the search finds, or at a class with a base that cannot be looked up. -/
theorem exists_search_or_unreadable (hr : r.Sound) (n : Nat) : ∀ seen pending l, Alike r l → (∀ s ∈ seen, Found r s) →
    (∀ p ∈ pending, Found r p) → pending.length + openBases (seen.map Located.qualifiedName) r.classes ≤ n →
      (∃ chain, result (chainFrom n (seen.map Located.qualifiedName) pending) l = .ok chain ∧
        (∀ b ∈ chain, Readable r b) ∧ Search (basesIn r) seen pending chain) ∨
      ∃ p, result (chainFrom n (seen.map Located.qualifiedName) pending) l = .error p ∧
        ∃ a ∈ pending, ∃ b, Reaches r a b ∧ ¬ Readable r b := by
  induction n with
  | zero =>
    intro seen pending l _ _ _ hn
    obtain rfl : pending = [] := List.eq_nil_of_length_eq_zero (by omega)
    exact .inl ⟨[], rfl, nofun, .done⟩
  | succ n ih =>
    intro seen pending l hl hseen hp hn
    cases pending with
    | nil => exact .inl ⟨[], rfl, nofun, .done⟩
    | cons a pending =>
      obtain ⟨ha, hpending⟩ := List.forall_mem_cons.1 hp
      have hmet := contains_qualifiedName hr hseen ha
      rw [List.length_cons] at hn
      cases hs : (seen.map Located.qualifiedName).contains a.qualifiedName with
      | true =>
        rw [result_chainFrom_met hs]
        rcases ih seen pending l hl hseen hpending (by omega)
          with ⟨chain, hchain, hread, hsearch⟩ | ⟨p, hp, c, hc, hreach⟩
        · exact .inl ⟨chain, hchain, hread, .again (hmet.1 hs) hsearch⟩
        · exact .inr ⟨p, hp, c, List.mem_cons_of_mem a hc, hreach⟩
      | false =>
        have hreads : Reads (fun _ => True) (newParents (a.qualifiedName :: seen.map Located.qualifiedName) a) :=
          .newParents _ a
        by_cases hread : Readable r a
        · have hnew := result_newParents hl (result_newParents_of_readable hread)
            (a.qualifiedName :: seen.map Located.qualifiedName)
          rw [result_chainFrom_new hs, hnew, Except.bind]
          obtain ⟨hcount, hfound⟩ := gives_newParents r _ a l hl _ hnew
          have hseen' : ∀ s ∈ a :: seen, Found r s := List.forall_mem_cons.2 ⟨ha, hseen⟩
          have hrun := ih (a :: seen) _ _ (hl.learned (hreads.learned l)) hseen'
            (List.forall_mem_append.2 ⟨hfound, hpending⟩) (openBases_step ha.mem_classes hs hcount hn)
          rw [List.map_cons] at hrun
          rcases hrun with ⟨chain, hchain, hall, hsearch⟩ | ⟨p, hp, c, hc, b, hreach, hb⟩
          · rw [hchain]
            have hnotin : a ∉ seen := fun hmem => Bool.false_ne_true (hs.symm.trans (hmet.2 hmem))
            refine .inl
              ⟨a :: chain, rfl, List.forall_mem_cons.2 ⟨hread, hall⟩, hsearch.of_step hnotin fun b hb hkeep => ?_⟩
            refine (contains_qualifiedName hr hseen' (found_of_mem_basesIn hb)).1 ?_
            rwa [Bool.not_eq_false'] at hkeep
          · rw [hp]
            refine .inr ⟨p, rfl, ?_⟩
            rcases List.mem_append.1 hc with hc | hc
            · exact ⟨a, List.mem_cons_self, b, .head (List.mem_filter.1 hc).1 hreach, hb⟩
            · exact ⟨c, List.mem_cons_of_mem a hc, b, hreach, hb⟩
        · cases hps : result (newParents (a.qualifiedName :: seen.map Located.qualifiedName) a) l with
          | ok ps => exact absurd (readable_of_newParents ((hreads.alike hl).symm.trans hps)) hread
          | error p =>
            rw [result_chainFrom_new hs, hps]
            exact .inr ⟨p, rfl, a, List.mem_cons_self, a, .refl, hread⟩

/-! ## Chains -/

/-- A list of classes is the order in which the recursive search finds them from a class. -/
structure IsPreorder (r : Library) (a : Located) (chain : List Located) : Prop where
  head : chain.head? = some a
  /-- A class is there once, by its name. -/
  nodup : (chain.map Located.qualifiedName).Nodup
  mem_iff : ∀ b, b ∈ chain ↔ Reaches r a b
  search_iff : ∀ order, Search (basesIn r) [] [a] order ↔ order = chain

theorem isPreorder_of_search (hr : r.Sound) (ha : Found r a) {chain : List Located}
    (h : Search (basesIn r) [] [a] chain) : IsPreorder r a chain := by
  have hmem : ∀ b, b ∈ chain ↔ Reaches r a b := fun _ => h.mem_iff
  refine ⟨h.head?_eq, h.fresh.1.map_on fun b hb c hc hname => ?_, hmem, fun order =>
    ⟨fun h' => h'.unique h, fun heq => heq ▸ h⟩⟩
  exact (((hmem b).1 hb).found ha).eq_of_qualifiedName hr (((hmem c).1 hc).found ha) hname

variable (r a) in
/-- A class has a chain if every base of the classes that it reaches can be looked up, and only then. -/
def HasPreorder : Prop :=
  ((∀ b, Reaches r a b → Readable r b) → ∃ chain, result (ancestorChain a) r = .ok chain ∧ IsPreorder r a chain) ∧
    ∀ b, Reaches r a b → ¬ Readable r b →
      ∃ p, result (ancestorChain a) r = .error p ∧ p.isAbsorbed = false ∧ Unloaded r p

theorem hasPreorder_of_sound (hr : r.Sound) (ha : Found r a) : HasPreorder r a := by
  have hrun := exists_search_or_unreadable hr (r.baseCount + a.cls.bases.length + 1) [] [a] r (.refl r) nofun
    (by simpa using ha) (by rw [List.map_nil, openBases_nil, List.length_singleton]; omega)
  rcases hrun with ⟨chain, hchain, hall, hsearch⟩ | ⟨p, hp, c, hc, b, hreach, hb⟩
  · refine ⟨fun _ => ⟨chain, hchain, isPreorder_of_search hr ha hsearch⟩, fun b hreach hb => ?_⟩
    exact absurd (hall b (hsearch.mem_iff.2 hreach)) hb
  · obtain rfl := List.mem_singleton.1 hc
    refine ⟨fun hall => absurd (hall b hreach) hb, fun _ _ _ => ⟨p, hp, ?_⟩⟩
    exact (Firm.ancestorChain c).unloaded (.ancestorChain c) hp

/-- A class of a sound library has a chain, which is the preorder of the classes that it reaches, if every base of these
classes can be looked up, and only then. If one cannot, a module of the library fails with a problem that no handler
takes, and so does the chain. -/
theorem result_ancestorChain_preorder (hr : r.Sound) (ha : Found r a) :
    ((∀ b, Reaches r a b → Readable r b) → ∃ chain, result (ancestorChain a) r = .ok chain ∧ IsPreorder r a chain) ∧
      ∀ b, Reaches r a b → ¬ Readable r b →
        ∃ p, result (ancestorChain a) r = .error p ∧ p.isAbsorbed = false ∧ Unloaded r p :=
  hasPreorder_of_sound hr ha

theorem hasPreorder_openLibrary {s : Settings} {root : String} {files texts : Entries String}
    (hr : Becomes (Infer.openLibrary s root files texts) r) (ha : Found r a) : HasPreorder r a :=
  hasPreorder_of_sound hr.sound ha

/-- The bases of `D` have a base in another module, of which `D` is a base in turn. -/
def braid : List Source.Module :=
  [moduleIn "m" { names := [("A", "n.A")] } [("D", ["B", "C"]), ("B", ["A", "object"]), ("C", ["A", "E"]), ("E", [])],
    moduleIn "n" { names := [("D", "m.D")] } [("A", ["D", "Base[D]"])]]

/-- A class of the first module. -/
def braided (name : String) (bases : List String) : Located := ⟨braid.head (by decide), classIn "m" name bases⟩

theorem absorbed_of_unloaded {ms : List Source.Module} {p : Problem} (h : Unloaded (libraryOfModules ms) p) :
    p.isAbsorbed = true := by
  obtain ⟨name, hname⟩ := h
  rw [result_loadModule] at hname
  change result (readSource (libraryOfModules ms) name) (libraryOfModules ms) = .error p at hname
  unfold readSource at hname
  split at hname
  · rename_i o ho
    obtain ⟨m, -, hm⟩ := List.mem_map.1 (Entries.mem_of_get? ho)
    cases hm
    cases hname
  · rename_i hindex
    cases hindex
  · cases hname
    rfl

/-- The chain of `D` has each of its classes once. -/
theorem result_ancestorChain_braided : ∃ chain,
    result (ancestorChain (braided "D" ["B", "C"])) (libraryOfModules braid) = .ok chain ∧
      IsPreorder (libraryOfModules braid) (braided "D" ["B", "C"]) chain ∧
      chain.map Located.qualifiedName = ["m.D", "m.B", "n.A", "m.C", "m.E"] := by
  have hsound : (libraryOfModules braid).Sound := sound_ofTexts (by decide +kernel)
  have hfound : Found (libraryOfModules braid) (braided "D" ["B", "C"]) := ⟨"m", "D", rfl, rfl⟩
  obtain ⟨chain, hchain, horder⟩ := (result_ancestorChain_preorder hsound hfound).1
    fun b _ => readable_of_absorbed (fun _ => absorbed_of_unloaded) b
  refine ⟨chain, hchain, horder, ?_⟩
  have heval : (result (ancestorChain (braided "D" ["B", "C"])) (libraryOfModules braid)).toOption.map
      (List.map Located.qualifiedName) = some ["m.D", "m.B", "n.A", "m.C", "m.E"] := by decide +kernel
  rw [hchain] at heval
  exact Option.some.inj heval

/-- A module whose class has a base in another module, as in `class A(n.B): pass`. -/
def leaning : Source.Module := moduleIn "m" {} [("A", ["n.B"])]

/-- The library with this module and one that fails, as with `class B: x: int = {[1]: 2}`. -/
def leaningOnFailing : Library := .ofTexts [("m", .ok leaning), ("n", .error (.fault .mismatch))]

/-- Whatever texts have the class `A` and a literal without a value: a base of `A` is in a module that fails, and so it
has no chain. -/
theorem unreadable_base :
    (∀ m n, readModule (Text.toBytes m) "m" false false = .ok leaning →
      readModule (Text.toBytes n) "n" false false = .error (.fault .mismatch) →
      Infer.openLibrary {} "" [] [("m.py", m), ("n.py", n)] = leaningOnFailing) ∧
    ∃ a, Found leaningOnFailing a ∧ a.qualifiedName = "m.A" ∧ Fatal (result (ancestorChain a) leaningOnFailing) := by
  constructor
  · intro m n hm hn
    have hempty : Infer.openLibrary {} "" [] [] = {} := indexFolder_of_empty rfl
    change ((Infer.openLibrary {} "" [] []).addText "m.py" m).addText "n.py" n = _
    rw [hempty, addText_of_read "m.py" "m" (by decide +kernel) ⟨rfl, rfl⟩ hm]
    exact addText_of_read "n.py" "n" (by decide +kernel) ⟨rfl, rfl⟩ hn
  · exact ⟨⟨leaning, classIn "m" "A" ["n.B"]⟩, ⟨"m", "A", rfl, rfl⟩, rfl, by decide +kernel⟩

end ApiSchema
