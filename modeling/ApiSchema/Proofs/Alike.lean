import ApiSchema.Proofs.Family
import ApiSchema.Proofs.Reads

/-!
# Reading alike libraries

What is read from two libraries is the same, as far as their modules have the same outcomes (`Reads.same`).
Where they differ, the reading over the first library has loaded a module that tells them apart, or has failed at it.

The chain of ancestors is the one place where a library is asked for a number, which bounds the walk. Every
class that can be found is counted in it, so two bounds never tell chains apart (`chainFrom_tied`).
-/
namespace ApiSchema

open Source

variable {α β : Type} {m : Source.Module} {Q : Problem → Prop} {x : Inference α}

/-! ## The bound of a chain -/

def outcomeModules : Except ReadError Source.Module → List Source.Module
  | .ok m => [m]
  | .error _ => []

/-- All modules that a library has read or can read. -/
def Library.modules (l : Library) : List Source.Module :=
  l.texts.values.flatMap outcomeModules ++ l.folder.values.flatMap (outcomeModules ·.outcome) ++ l.cache.modules.values

/-- The classes of these modules. -/
def Library.classes (l : Library) : List Source.Class := l.modules.flatMap (·.classes.values)

theorem total_append (xs ys : List Nat) : total (xs ++ ys) = total xs + total ys := by
  induction xs with
  | nil => simp [total]
  | cons x xs ih =>
    change x + total (xs ++ ys) = x + total xs + total ys
    rw [ih, Nat.add_assoc]

theorem total_flatMap (g : β → Nat) (f : α → List β) (as : List α) :
    total ((as.flatMap f).map g) = total (as.map fun a => total ((f a).map g)) := by
  induction as with
  | nil => rfl
  | cons a as ih =>
    rw [List.flatMap_cons, List.map_append, total_append, ih]
    rfl

/-- How many bases the classes have that were not seen. -/
def openBases (seen : List String) : List Source.Class → Nat
  | [] => 0
  | c :: cs => (if seen.contains c.qualifiedName then 0 else c.bases.length) + openBases seen cs

theorem openBases_nil (l : Library) : openBases [] l.classes = l.baseCount := by
  have hall : ∀ cs, openBases [] cs = total (cs.map (·.bases.length)) := by
    intro cs
    induction cs with
    | nil => rfl
    | cons c cs ih => exact congrArg (c.bases.length + ·) ih
  have hout : (fun o => total ((outcomeModules o).map Source.Module.baseCount)) = outcomeBaseCount := by
    funext o
    cases o with
    | ok m => exact Nat.add_zero _
    | error e => rfl
  rw [hall, Library.classes, total_flatMap]
  change total (l.modules.map Source.Module.baseCount) = _
  rw [Library.modules, List.map_append, List.map_append, total_append, total_append, total_flatMap, total_flatMap, hout]
  congr 3
  exact List.map_congr_left fun f _ => congrFun hout f.outcome

theorem openBases_cons_le (name : String) (seen : List String) (cs : List Source.Class) :
    openBases (name :: seen) cs ≤ openBases seen cs := by
  induction cs with
  | nil => exact Nat.le_refl _
  | cons c cs ih =>
    unfold openBases
    rw [List.contains_cons]
    cases seen.contains c.qualifiedName <;> cases c.qualifiedName == name <;> simp <;> omega

section

variable {seen : List String} {cs : List Source.Class} {c : Source.Class} (hc : c ∈ cs)
  (hs : seen.contains c.qualifiedName = false)

include hc hs

/-- Seeing a class closes its bases. -/
theorem openBases_cons :
    openBases (c.qualifiedName :: seen) cs + c.bases.length ≤ openBases seen cs := by
  induction cs with
  | nil => cases hc
  | cons d cs ih =>
    unfold openBases
    rw [List.contains_cons]
    rcases List.mem_cons.1 hc with rfl | hc
    · have hle := openBases_cons_le c.qualifiedName seen cs
      simp only [BEq.rfl, Bool.true_or, if_true, hs, Bool.false_eq_true, if_false]
      omega
    · have ih := ih hc
      cases seen.contains d.qualifiedName <;> cases d.qualifiedName == c.qualifiedName <;> simp <;> omega

/-- The bases of a class become pending when it is seen, but are no longer open, so a bound on both still holds. -/
theorem openBases_step {ps pending : List Located} {n : Nat} (hps : ps.length ≤ c.bases.length)
    (hn : pending.length + 1 + openBases seen cs ≤ n + 1) :
    (ps ++ pending).length + openBases (c.qualifiedName :: seen) cs ≤ n := by
  have hclosed := openBases_cons hc hs
  rw [List.length_append]
  omega

end

theorem recordOutcome_ok {place : String} {o : Except ReadError Source.Module} {l : Library}
    (h : result (recordOutcome place o) l = .ok m) : o = .ok m := by
  rcases o with (_ | _ | _) | m'
  · cases h
  · cases h
  · cases h
  · exact congrArg Except.ok (Except.ok.inj h)

theorem readFile_ok {path : String} {l : Library} (h : result (readFile path) l = .ok m) :
    ∃ file, l.folder.get? path = some file ∧ file.outcome = .ok m := by
  unfold readFile at h
  rw [result_get] at h
  cases hf : l.folder.get? path with
  | none =>
    simp only [hf] at h
    cases h
  | some file =>
    simp only [hf] at h
    split at h
    · cases h
    · exact ⟨file, rfl, recordOutcome_ok h⟩

theorem mem_modules {r : Library} {name : String} (h : result (loadModule name) r = .ok m) :
    m ∈ r.modules := by
  rw [result_loadModule] at h
  unfold Library.modules
  cases hk : r.cache.modules.get? name with
  | some m' =>
    rw [hk] at h
    cases h
    exact List.mem_append_right _ (Entries.mem_values hk)
  | none =>
    rw [hk] at h
    dsimp only at h
    refine List.mem_append_left _ ?_
    unfold readSource at h
    split at h
    · rename_i o ht
      refine List.mem_append_left _ (List.mem_flatMap.2 ⟨o, Entries.mem_values ht, ?_⟩)
      rw [recordOutcome_ok h]
      exact List.mem_singleton_self m
    · obtain ⟨file, hf, ho⟩ := readFile_ok h
      refine List.mem_append_right _ (List.mem_flatMap.2 ⟨file, Entries.mem_values hf, ?_⟩)
      rw [ho]
      exact List.mem_singleton_self m
    · cases h

theorem Found.mem_classes {r : Library} {l : Located} (h : Found r l) : l.cls ∈ r.classes := by
  obtain ⟨name, short, hm, hc⟩ := h
  exact List.mem_flatMap.2 ⟨l.module, mem_modules hm, Entries.mem_values hc⟩

/-! ## Reading alike libraries -/

/-- An outcome that no handler takes. -/
def Fatal (e : Except Problem α) : Prop := ∃ p, e = .error p ∧ p.isAbsorbed = false

instance : (e : Except Problem α) → Decidable (Fatal e)
  | .ok _ => isFalse nofun
  | .error p => decidable_of_iff (p.isAbsorbed = false) ⟨fun h => ⟨p, rfl, h⟩, fun ⟨_, rfl, h⟩ => h⟩

/-- Two libraries whose modules have the same outcomes, apart from some that the first loads or, if any of them
`fails`, fails at with a problem that no handler takes. -/
structure Kin (away : String → Prop) (fails : Prop) (l r : Library) : Prop where
  has : ∀ name, l.hasModule name = r.hasModule name
  outcome : ∀ name, ¬ away name → result (loadModule name) l = result (loadModule name) r
  hard : ∀ name, away name → ∀ p, result (loadModule name) l = .error p → fails ∧ p.isAbsorbed = false

/-- Computations over two libraries end alike, unless the first has asked for a module that tells the libraries
apart: then that module is loaded, or the computation has failed at it. -/
def Tied (away : String → Prop) (fails : Prop) (x y : Inference α) (l r : Library) : Prop :=
  (∃ name, away name ∧ (fails ∧ Fatal (result x l) ∨ (after x l).cache.modules.has name = true)) ∨
    result x l = result y r

section

variable {away : String → Prop} {fails : Prop} {l l' r r' : Library}

theorem Kin.of_alike (h : Alike l r) : Kin (fun _ => False) fails l r :=
  ⟨fun name => (h.has name).symm, fun name _ => (h.outcome name).symm, nofun⟩

theorem Kin.alike (h : Kin away fails l r) (hl : Alike l l') (hr : Alike r r') : Kin away fails l' r' where
  has name := (hl.has name).trans ((h.has name).trans (hr.has name).symm)
  outcome name hn := (hl.outcome name).trans ((h.outcome name hn).trans (hr.outcome name).symm)
  hard name hn := (hl.outcome name) ▸ h.hard name hn

theorem Kin.learned (h : Kin away fails l r) (hl : Learned l l') (hr : Learned r r') : Kin away fails l' r' :=
  h.alike hl.alike hr.alike

theorem Tied.bind {x y : Inference α} {f g : α → Inference β} (h : Tied away fails x y l r)
    (hf : ∀ a l', Learned l' (after (f a) l'))
    (hfg : ∀ a, result x l = .ok a → result y r = .ok a → Tied away fails (f a) (g a) (after x l) (after y r)) :
    Tied away fails (x >>= f) (y >>= g) l r := by
  unfold Tied
  rw [result_bind, result_bind, after_bind]
  rcases h with ⟨name, hn, ⟨hfails, p, hp, hfatal⟩ | hl⟩ | h
  · exact .inl ⟨name, hn, .inl ⟨hfails, p, by rw [hp], hfatal⟩⟩
  · refine .inl ⟨name, hn, .inr ?_⟩
    cases result x l with
    | error q => exact hl
    | ok a => exact (hf a _).loaded name hl
  · rw [← h]
    cases ha : result x l with
    | error q => exact .inr rfl
    | ok a => exact hfg a ha (h ▸ ha)

/-- Two chains are the same as soon as both bounds are high enough, for classes of which each library knows all that it
can find. -/
theorem chainFrom_tied {l₀ r₀ : Library} {cs ds : List Source.Class} (hreads : ∀ seen a, Reads Q (newParents seen a))
    (hstep : ∀ seen a l r, Kin away fails l r → Tied away fails (newParents seen a) (newParents seen a) l r)
    (hcs : ∀ a, Found l₀ a → a.cls ∈ cs) (hds : ∀ a, Found r₀ a → a.cls ∈ ds) (n : Nat) :
    ∀ n' seen pending l r, Alike l₀ l → Alike r₀ r → Kin away fails l r → (∀ p ∈ pending, p.cls ∈ cs ∧ p.cls ∈ ds) →
      pending.length + openBases seen cs ≤ n → pending.length + openBases seen ds ≤ n' →
      Tied away fails (chainFrom n seen pending) (chainFrom n' seen pending) l r := by
  induction n with
  | zero =>
    intro n' seen pending l r _ _ _ _ hn _
    have hp : pending = [] := List.eq_nil_of_length_eq_zero (by omega)
    subst hp
    cases n' <;> exact .inr rfl
  | succ n ih =>
    intro n' seen pending l r hl hr hk hmem hn hn'
    cases pending with
    | nil => cases n' <;> exact .inr rfl
    | cons c pending =>
      obtain _ | n' := n'
      · rw [List.length_cons] at hn'
        omega
      rw [List.length_cons] at hn hn'
      have hc := hmem c List.mem_cons_self
      have htail : ∀ p ∈ pending, p.cls ∈ cs ∧ p.cls ∈ ds := (List.forall_mem_cons.1 hmem).2
      unfold chainFrom
      dsimp only
      by_cases hs : seen.contains c.cls.qualifiedName = true
      · rw [if_pos hs, if_pos hs]
        exact ih n' seen pending l r hl hr hk htail (by omega) (by omega)
      · rw [if_neg hs, if_neg hs]
        have hs := Bool.eq_false_iff.2 hs
        refine .bind (hstep _ _ l r hk)
          (fun _ => (Reads.bind (Reads.sequential.chainFrom hreads _ _ _) fun _ => .pure _).learned)
          fun ps hps hps' => ?_
        have hpl := gives_newParents l₀ _ _ l hl ps hps
        have hpr := gives_newParents r₀ _ _ r hr ps hps'
        have hl' := (hreads (c.cls.qualifiedName :: seen) c).learned l
        have hr' := (hreads (c.cls.qualifiedName :: seen) c).learned r
        refine .bind (ih n' _ _ _ _ (hl.learned hl') (hr.learned hr') (hk.learned hl' hr') ?_
          (openBases_step hc.1 hs hpl.1 hn) (openBases_step hc.2 hs hpr.1 hn'))
          (fun _ l' => .refl l') fun _ _ _ => .inr rfl
        exact List.forall_mem_append.2 ⟨fun p hp => ⟨hcs p (hpl.2 p hp), hds p (hpr.2 p hp)⟩, htail⟩

theorem ancestorChain_tied (hk : Kin away fails l r) (hreads : ∀ seen a, Reads Q (newParents seen a))
    (hstep : ∀ seen a l r, Kin away fails l r → Tied away fails (newParents seen a) (newParents seen a) l r)
    (c : Located) : Tied away fails (ancestorChain c) (ancestorChain c) l r := by
  -- the class itself need not be found in the libraries, so it is counted beside their classes
  have hbound : ∀ l : Library,
      [c].length + openBases [] (c.cls :: l.classes) ≤ l.baseCount + c.cls.bases.length + 1 := by
    intro l
    rw [← openBases_nil l]
    change 1 + (c.cls.bases.length + openBases [] l.classes) ≤ _
    omega
  refine chainFrom_tied hreads hstep (fun a ha => List.mem_cons_of_mem _ ha.mem_classes)
    (fun a ha => List.mem_cons_of_mem _ ha.mem_classes) _ _ _ _ l r (.refl l) (.refl r) hk (fun p hp => ?_)
    (hbound l) (hbound r)
  rw [List.mem_singleton.1 hp]
  exact ⟨List.mem_cons_self, List.mem_cons_self⟩

/-- What is read from two libraries is the same, as far as their modules have the same outcomes. -/
theorem Reads.same (hx : Reads Q x) (hk : Kin away fails l r) :
    Tied away fails x x l r := by
  induction hx generalizing l r with
  | pure a | throw p _ | tried x _ => exact .inr rfl
  | bind hx hf ihx ihf =>
    exact .bind (ihx hk) (fun a l' => (hf a).learned l') fun a _ _ =>
      ihf a (hk.learned (hx.learned l) (hx.learned r))
  | @recover α x f hx hf ht ihx ihf =>
    unfold Tied
    rw [result_tryCatch, result_tryCatch, after_tryCatch]
    rcases ihx hk with ⟨name, hn, ⟨hfails, p, hp, hfatal⟩ | hl⟩ | h
    · exact .inl ⟨name, hn, .inl ⟨hfails, p, by rw [hp]; dsimp only; rw [ht p hfatal]; rfl, hfatal⟩⟩
    · refine .inl ⟨name, hn, .inr ?_⟩
      cases result x l with
      | ok a => exact hl
      | error q =>
        cases hq : q.isAbsorbed with
        | true => exact ((hf q hq).learned _).loaded name hl
        | false =>
          dsimp only
          rw [ht q hq]
          exact hl
    · rw [← h]
      cases result x l with
      | ok a => exact .inr rfl
      | error q =>
        cases hq : q.isAbsorbed with
        | true => exact ihf q hq (hk.learned (hx.learned l) (hx.learned r))
        | false =>
          dsimp only
          rw [ht q hq]
          exact .inr rfl
  | load name =>
    by_cases hn : away name
    · refine .inl ⟨name, hn, ?_⟩
      cases hm : result (loadModule name) l with
      | ok m => exact .inr (loaded_of_loadModule hm)
      | error p =>
        obtain ⟨hfails, hfatal⟩ := hk.hard name hn p hm
        exact .inl ⟨hfails, p, rfl, hfatal⟩
    · exact .inr (hk.outcome name hn)
  | split name =>
    refine .inr ?_
    unfold splitName
    rw [result_get, result_get]
    have : l.splitName? name = r.splitName? name := by
      unfold Library.splitName?
      simp only [hk.has]
    rw [this]
    cases r.splitName? name <;> rfl
  | chain c hreads ih => exact ancestorChain_tied hk hreads (fun seen a l r hk => ih seen a hk) c

/-- Where the first library can load none of the modules that tell the libraries apart, it ends as the second, or in a
problem that no handler takes. -/
theorem Reads.barely (hx : Reads (fun _ => True) x) (hk : Kin away fails l r)
    (hbare : ∀ name m, away name → result (loadModule name) l ≠ .ok m) :
    fails ∧ Fatal (result x l) ∨ result x l = result x r := by
  rcases hx.same hk with ⟨name, hn, hfatal | hloaded⟩ | h
  · exact .inl hfatal
  · obtain ⟨m, hm⟩ := Option.isSome_iff_exists.1 hloaded
    refine absurd ?_ (hbare name m hn)
    rw [← (hx.learned l).outcome, result_loadModule, hm]
  · exact .inr h

/-- What is read does not depend on what was read before. -/
theorem Reads.alike (hx : Reads (fun _ => True) x) (hl : Alike r l) : result x l = result x r :=
  (hx.barely (.of_alike hl.symm : Kin _ False l r) nofun).resolve_left fun h => h.1

end

theorem gives_self (hx : Reads (fun _ => True) x) (r : Library) : Gives r x fun a => result x r = .ok a :=
  fun _ hl _ ha => (hx.alike hl).symm.trans ha

end ApiSchema
