import ApiSchema.Proofs.Alike

/-!
# What names denote

A dotted name denotes a class, a function or a method. A class may be passed on by modules that import it: its name
leads to it in some steps (`Leads`). `Denotes` says this without the order in which a library looks, and without the
names that it has seen on the way.

A library takes only so many steps (`maxHops`). It finds a subject for a name that denotes one in fewer steps
(`exists_subject`), and finds only what the name denotes (`denotes_of_findSubject`).
-/
namespace ApiSchema

open Source

variable {α β : Type} {r : Library} {name : String} {m : Source.Module} {k : Nat} {l : Located}
  {subject : Subject} {rest seen : List String}

theorem Reads.result_bind {x : Inference α} {f : α → Inference β} {a : α} (hx : Reads (fun _ => True) x)
    (hf : Reads (fun _ => True) (f a)) (ha : result x r = .ok a) : result (x >>= f) r = result (f a) r := by
  rw [ApiSchema.result_bind, ha]
  exact hf.alike (hx.learned r).alike

theorem Reads.bind_ok {x : Inference α} {f : α → Inference β} {b : β} (hx : Reads (fun _ => True) x)
    (hf : ∀ a, Reads (fun _ => True) (f a)) (h : result (x >>= f) r = .ok b) :
    ∃ a, result x r = .ok a ∧ result (f a) r = .ok b := by
  cases ha : result x r with
  | error q =>
    rw [ApiSchema.result_bind, ha] at h
    cases h
  | ok a => exact ⟨a, rfl, (hx.result_bind (hf a) ha).symm.trans h⟩

/-! ## Classes that are passed on -/

variable (r)

/-- A name is that of a module with some names after it. -/
inductive Placed (name : String) (m : Source.Module) (rest : List String) : Prop
  | intro {home : String} (hs : r.splitName? name = some (home, rest)) (hm : result (loadModule home) r = .ok m)

/-- A name leads to a class in some steps, each from a name to the one that its module imports it by. -/
inductive Leads : Nat → String → Located → Prop
  | defined {name short : String} {m : Source.Module} {c : Source.Class} (hname : Placed r name m [short])
    (hc : m.classes.get? short = some c) : Leads 0 name ⟨m, c⟩
  | imported {k : Nat} {name short target : String} {m : Source.Module} {l : Located} (hname : Placed r name m [short])
    (hc : m.classes.get? short = none) (ht : m.imports.names.get? short = some target) (hl : Leads k target l) :
    Leads (k + 1) name l

variable {r}

theorem Placed.unique {m' : Source.Module} {rest' : List String} (h : Placed r name m rest)
    (h' : Placed r name m' rest') : m = m' ∧ rest = rest' := by
  obtain ⟨hs, hl⟩ := h
  obtain ⟨hs', hl'⟩ := h'
  cases hs.symm.trans hs'
  exact ⟨Except.ok.inj (hl.symm.trans hl'), rfl⟩

/-- A name leads to one class, in one number of steps. -/
theorem Leads.unique {k' : Nat} {l' : Located} (h : Leads r k name l) (h' : Leads r k' name l') :
    k = k' ∧ l = l' := by
  induction h generalizing k' l' with
  | defined hname hc =>
    cases h' with
    | defined hname' hc' =>
      obtain ⟨rfl, hrest⟩ := hname.unique hname'
      cases hrest
      cases hc.symm.trans hc'
      exact ⟨rfl, rfl⟩
    | imported hname' hc' _ _ =>
      obtain ⟨rfl, hrest⟩ := hname.unique hname'
      cases hrest
      cases hc.symm.trans hc'
  | imported hname hc ht _ ih =>
    cases h' with
    | defined hname' hc' =>
      obtain ⟨rfl, hrest⟩ := hname.unique hname'
      cases hrest
      cases hc.symm.trans hc'
    | imported hname' _ ht' hl' =>
      obtain ⟨rfl, hrest⟩ := hname.unique hname'
      cases hrest
      cases ht.symm.trans ht'
      obtain ⟨rfl, rfl⟩ := ih hl'
      exact ⟨rfl, rfl⟩

theorem Leads.isEmpty_eq_false (h : Leads r k name l) : name.isEmpty = false := by
  have hplaced : ∀ m rest, ¬ Placed r "" m rest := by
    rintro m rest ⟨hs, _⟩
    cases hs
  refine Bool.eq_false_iff.2 fun hempty => ?_
  obtain rfl : name = "" := String.isEmpty_iff.1 hempty
  cases h with
  | defined hname _ | imported hname _ _ _ => exact hplaced _ _ hname

theorem result_splitName {found : String × List String} :
    result (splitName name) r = .ok found ↔ r.splitName? name = some found := by
  unfold splitName
  rw [result_get]
  cases r.splitName? name with
  | some found' => exact ⟨fun h => congrArg some (Except.ok.inj h), fun h => congrArg Except.ok (Option.some.inj h)⟩
  | none => exact ⟨nofun, nofun⟩

theorem hop_eq (name : String) :
    hop name = splitName name >>= fun found => loadModule found.1 >>= fun m => pure (hopIn name m found.2) := rfl

theorem reads_hopIn (name : String) (found : String × List String) :
    Reads (fun _ => True) (loadModule found.1 >>= fun m => pure (hopIn name m found.2)) :=
  .bind (.load found.1) fun _ => .pure _

theorem result_hop (h : Placed r name m rest) :
    result (hop name) r = .ok (hopIn name m rest) := by
  obtain ⟨hs, hm⟩ := h
  rw [hop_eq, Reads.result_bind (.split name) (reads_hopIn name _) (result_splitName.2 hs)]
  exact Reads.result_bind (f := fun m => pure (hopIn name m rest)) (.load _) (.pure _) hm

theorem placed_of_hop {h : Hop} (hh : result (hop name) r = .ok h) :
    ∃ m rest, Placed r name m rest ∧ hopIn name m rest = h := by
  rw [hop_eq] at hh
  obtain ⟨⟨home, rest⟩, hs, hh⟩ := Reads.bind_ok (.split name) (reads_hopIn name) hh
  obtain ⟨m, hm, hh⟩ := Reads.bind_ok (f := fun m => pure (hopIn name m rest)) (.load home) (fun m => .pure _) hh
  exact ⟨m, rest, ⟨result_splitName.1 hs, hm⟩, Except.ok.inj hh⟩

/-- The step after a hop. -/
def followed (seen : List String) (name : String) (n : Nat) : Hop → Inference (Option Located)
  | .found l => return some l
  | .next target => locateFrom (name :: seen) target n
  | .stuck => return none

theorem reads_followed (seen : List String) (name : String) (n : Nat) (h : Hop) :
    Reads (fun _ => True) (followed seen name n h) := by
  cases h with
  | found l => exact .pure _
  | next target => exact .locateFrom _ _ _
  | stuck => exact .pure _

theorem locateFrom_eq (n : Nat) (hnew : seen.contains name = false) :
    locateFrom seen name (n + 1) = hop name >>= followed seen name n := by
  rw [locateFrom, hnew, if_neg Bool.false_ne_true]
  refine congrArg _ (funext fun h => ?_)
  cases h <;> rfl

/-- A library follows a name to the class that it leads to. The names that it has seen lead there in more steps, so none
of them comes again. -/
theorem result_locateFrom {n : Nat} (h : Leads r k name l)
    (hk : k < n) (hseen : ∀ s ∈ seen, ∃ j l', k < j ∧ Leads r j s l') :
    result (locateFrom seen name n) r = .ok (some l) := by
  have hnew : seen.contains name = false := by
    refine Bool.eq_false_iff.2 fun hc => ?_
    obtain ⟨j, l', hj, hl'⟩ := hseen name (List.contains_iff_mem.1 hc)
    have := (h.unique hl').1
    omega
  induction h generalizing n seen with
  | @defined name short m c hname hc =>
    obtain ⟨n, rfl⟩ : ∃ n', n = n' + 1 := ⟨n - 1, by omega⟩
    have hhop : hopIn name m [short] = .found ⟨m, c⟩ := by simp [hopIn, hc]
    rw [locateFrom_eq n hnew, Reads.result_bind (.hop name) (reads_followed _ _ _ _) (result_hop hname), hhop]
    rfl
  | @imported k name short target m l hname hc ht hl ih =>
    obtain ⟨n, rfl⟩ : ∃ n', n = n' + 1 := ⟨n - 1, by omega⟩
    have hself : target ≠ name := by
      rintro rfl
      have := (hl.unique (.imported hname hc ht hl)).1
      omega
    have hhop : hopIn name m [short] = .next target := by
      have hempty : target.isEmpty = false := hl.isEmpty_eq_false
      simp [hopIn, hc, ht, hempty, hself]
    have hseen' : ∀ s ∈ name :: seen, ∃ j l', k < j ∧ Leads r j s l' := by
      intro s hs
      rcases List.mem_cons.1 hs with rfl | hs
      · exact ⟨k + 1, l, by omega, .imported hname hc ht hl⟩
      · obtain ⟨j, l', hj, hl'⟩ := hseen s hs
        exact ⟨j, l', by omega, hl'⟩
    rw [locateFrom_eq n hnew, Reads.result_bind (.hop name) (reads_followed _ _ _ _) (result_hop hname), hhop]
    refine ih (by omega) hseen' (Bool.eq_false_iff.2 fun hc' => ?_)
    obtain ⟨j, l', hj, hl'⟩ := hseen' target (List.contains_iff_mem.1 hc')
    have := (hl.unique hl').1
    omega

theorem leads_of_locateFrom {n : Nat}
    (h : result (locateFrom seen name n) r = .ok (some l)) : ∃ k < n, Leads r k name l := by
  induction n generalizing seen name with
  | zero => cases h
  | succ n ih =>
    cases hnew : seen.contains name with
    | true =>
      rw [locateFrom, hnew] at h
      cases h
    | false =>
      rw [locateFrom_eq n hnew] at h
      obtain ⟨hop, hhop, h⟩ := Reads.bind_ok (.hop name) (reads_followed _ _ _) h
      obtain ⟨m, rest, hname, rfl⟩ := placed_of_hop hhop
      unfold hopIn at h
      split at h
      · rename_i short
        split at h
        · rename_i c _ hc
          cases h
          exact ⟨0, by omega, .defined hname hc⟩
        · rename_i target hc ht
          split at h
          · cases h
          · obtain ⟨k, hk, hl⟩ := ih h
            exact ⟨k + 1, by omega, .imported hname hc ht hl⟩
        · cases h
      · cases h

/-! ## Subjects -/

variable (r)

/-- What a name denotes, and in how many steps: a class that it leads to, a function of a module, or a method of a
class. -/
inductive Denotes (name : String) : Nat → Subject → Prop
  | cls {k : Nat} {l : Located} (hl : Leads r k name l) : Denotes name k (.cls l)
  | function {m : Source.Module} {short : String} {f : Function} (hname : Placed r name m [short])
    (hf : m.functions.get? short = some f) : Denotes name 0 (.function name m f)
  | method {home owner short : String} {m : Source.Module} {k : Nat} {l a : Located} {chain : List Located}
    {f : Function} (hsplit : r.splitName? name = some (home, [owner, short]))
    (hload : result (loadModule home) r = .ok m)
    (hl : Leads r k (home ++ "." ++ owner) l) (hchain : result (ancestorChain l) r = .ok chain)
    (hf : methodIn short chain = some (a, f)) : Denotes name k (.method name a.module l.cls f)

variable {r}

theorem result_findClass :
    result (findClass name) r = .ok (some l) ↔ ∃ k < maxHops, Leads r k name l := by
  have hlocate : result (locateClass name) r = .ok l ↔ result (locateFrom [] name maxHops) r = .ok (some l) := by
    unfold locateClass
    rw [result_bind]
    cases result (locateFrom [] name maxHops) r with
    | error p => exact ⟨nofun, nofun⟩
    | ok o =>
      cases o with
      | none => exact ⟨nofun, nofun⟩
      | some l' => exact ⟨fun h => by cases h; rfl, fun h => by cases h; rfl⟩
  have hfind : result (findClass name) r = .ok (some l) ↔ result (locateClass name) r = .ok l := by
    unfold findClass
    rw [result_attempt, map_eq_pure_bind, result_bind]
    cases result (locateClass name) r with
    | error p =>
      dsimp only
      split
      · exact ⟨nofun, nofun⟩
      · exact ⟨nofun, nofun⟩
    | ok l' => exact ⟨fun h => by cases h; rfl, fun h => by cases h; rfl⟩
  rw [hfind, hlocate]
  exact ⟨leads_of_locateFrom, fun ⟨k, hk, hl⟩ => result_locateFrom hl hk nofun⟩

theorem findSubject_eq (name : String) : findSubject name =
    splitName name >>= fun found => loadModule found.1 >>= fun m => subjectIn name found.1 m found.2 := rfl

theorem result_findSubject {home : String}
    (hs : r.splitName? name = some (home, rest)) (hm : result (loadModule home) r = .ok m) :
    result (findSubject name) r = result (subjectIn name home m rest) r := by
  rw [findSubject_eq, Reads.result_bind (.split name) (.bind (.load home) fun m => .subjectIn ..)
    (result_splitName.2 hs)]
  exact Reads.result_bind (.load home) (.subjectIn ..) hm

/-- A library finds a subject for a name that denotes one in a few steps. -/
theorem exists_subject (h : Denotes r name k subject) (hk : k < maxHops) :
    ∃ found, result (findSubject name) r = .ok found := by
  have hclass : ∀ {m short}, Placed r name m [short] → m.functions.get? short ≠ none ∨ (∃ l, result (findClass name) r =
      .ok (some l)) → ∃ found, result (findSubject name) r = .ok found := by
    rintro m short ⟨hs, hm⟩ hor
    rw [result_findSubject hs hm, subjectIn]
    cases m.classes.get? short with
    | some c => exact ⟨_, rfl⟩
    | none =>
      cases hf : m.functions.get? short with
      | some f => exact ⟨_, rfl⟩
      | none =>
        obtain ⟨l, hl⟩ := hor.resolve_left fun h => h hf
        refine ⟨.cls l, ?_⟩
        dsimp only
        rw [result_bind, hl]
        rfl
  cases h with
  | cls hl =>
    have hfound := result_findClass.2 ⟨_, hk, hl⟩
    cases hl with
    | defined hname _ | imported hname _ _ _ => exact hclass hname (.inr ⟨_, hfound⟩)
  | function hname hf => exact hclass hname (.inl (by rw [hf]; nofun))
  | @method home owner short m k l a chain f hs hm hl hchain hf =>
    have hchain' : result (ancestorChain l) (after (findClass (home ++ "." ++ owner)) r) = .ok chain :=
      ((Reads.ancestorChain l).alike ((Reads.findClass (Q := fun _ => True) _).learned r).alike).trans hchain
    refine ⟨.method name a.module l.cls f, ?_⟩
    rw [result_findSubject hs hm, subjectIn, result_bind, result_findClass.2 ⟨k, hk, hl⟩]
    dsimp only
    rw [result_bind, hchain']
    dsimp only
    rw [hf]
    rfl

theorem denotes_of_subjectIn {home : String}
    (hs : r.splitName? name = some (home, rest)) (hm : result (loadModule home) r = .ok m)
    (h : result (subjectIn name home m rest) r = .ok subject) : ∃ k < maxHops, Denotes r name k subject := by
  rcases rest with _ | ⟨short, _ | ⟨method, _ | ⟨_, _⟩⟩⟩
  · cases h
  · unfold subjectIn at h
    dsimp only at h
    cases hc : m.classes.get? short with
    | some c =>
      rw [hc] at h
      cases h
      exact ⟨0, by decide, .cls (.defined ⟨hs, hm⟩ hc)⟩
    | none =>
      cases hf : m.functions.get? short with
      | some f =>
        rw [hc, hf] at h
        cases h
        exact ⟨0, by decide, .function ⟨hs, hm⟩ hf⟩
      | none =>
        rw [hc, hf] at h
        dsimp only at h
        obtain ⟨found, hfound, h⟩ := exists_of_result_bind h
        cases found with
        | none => cases h
        | some l =>
          cases h
          obtain ⟨k, hk, hl⟩ := result_findClass.1 hfound
          exact ⟨k, hk, .cls hl⟩
  · unfold subjectIn at h
    dsimp only at h
    obtain ⟨found, hfound, h⟩ := exists_of_result_bind h
    cases found with
    | none => cases h
    | some l =>
      have hchain := (Reads.ancestorChain l).alike
        ((Reads.findClass (Q := fun _ => True) (home ++ "." ++ short)).learned r).alike
      obtain ⟨chain, hc, h⟩ := exists_of_result_bind h
      rw [hchain] at hc
      cases hf : methodIn method chain with
      | none => rw [hf] at h; cases h
      | some found =>
        rw [hf] at h
        cases h
        obtain ⟨k, hk, hl⟩ := result_findClass.1 hfound
        exact ⟨k, hk, .method hs hm hl hc hf⟩
  · cases h

theorem denotes_of_findSubject (h : result (findSubject name) r = .ok subject) :
    ∃ k < maxHops, Denotes r name k subject := by
  rw [findSubject_eq] at h
  obtain ⟨⟨home, rest⟩, hs, h⟩ := Reads.bind_ok (.split name)
    (fun found => .bind (.load found.1) fun m => .subjectIn ..) h
  obtain ⟨m, hm, h⟩ := Reads.bind_ok (.load home) (fun m => .subjectIn ..) h
  exact denotes_of_subjectIn (result_splitName.1 hs) hm h

end ApiSchema
